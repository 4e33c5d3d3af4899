import Trollbot.TconfigItems

-- What a text means item by item, and that comments mean nothing.
namespace Trollbot.Tconfig
open CBuffer Linked Machine

-- The tree a text makes of the blocks read so far and the open one.
inductive Gives : Heap Entry × Nat → Str → Heap Entry → Prop where
  | stop : Stops s → Gives at' s at'.1
  | item : Item token used rest → token.toList.foldlM applyToken at' = some later → Gives later rest tree → Gives at' (used ++ rest) tree

-- What may end a '//' comment.
inductive LineEnd where
  | feed
  | carriageFeed
  | carriage
deriving DecidableEq

def LineEnd.text : LineEnd → Str
  | .feed => ['\n']
  | .carriageFeed => ['\r','\n']
  | .carriage => ['\r']

-- The text of a comment has no terminator in it.
inductive Comment where
  | block (note : Str) (clean : nul ∉ note) (closeless : Closeless note)
  | line (note : Str) (clean : nul ∉ note) (oneLine : OneLine note) (ending : LineEnd)

def Comment.text : Comment → Str
  | .block note _ _ => '/' :: '*' :: (note ++ ['*','/'])
  | .line note _ _ ending => '/' :: '/' :: (note ++ ending.text)

-- Items in front of a place in the file. What stands at the place starts an item, or nothing does.
inductive Upto : Str → Str → Prop where
  | here : Upto [] rest
  | item : Item token used (front ++ rest) → Upto front rest → Upto (used ++ front) rest

-- The character at the place; at the end of the file, the terminator.
def nextOf (rest : Str) : Char := (heard rest).headD nul

-- A place between tokens: in front of an item, or `behind` the carriage return that ends a '//' comment
-- and that has no line feed after it.
inductive Place : Bool → Str → Str → Prop where
  | between : Upto front rest → Place false front rest
  | behind : OneLine note → rest.head? ≠ some '\n' → Upto front ('/' :: '/' :: (note ++ '\r' :: rest)) →
      Place true (front ++ '/' :: '/' :: (note ++ ['\r'])) rest

-- With the comment at such a place in front of the character, every file gives the tree it gave.
def Transparent (comment : Comment) (behind : Bool) (next : Char) : Prop :=
  ∀ (h : Heap Entry) (front rest : Str) (tree : Heap Entry), nul ∉ front → Place behind front (heard rest) → nextOf rest = next →
    fileToTconfig h (front ++ rest) (.tree tree) → fileToTconfig h (front ++ comment.text ++ rest) (.tree tree)

-- A '//' comment that ends with a lone carriage return.
def Comment.Swallows : Comment → Prop
  | .block _ _ _ => False
  | .line _ _ _ ending => ending = .carriage

-- Text that says nothing and leaves the character behind it as it is: comments and blanks, with a blank or
-- the end of the file there. A '//' comment that ends with a lone carriage return takes the character.
inductive Idle (next : Char) : Str → Prop where
  | here : next ∈ [nul,' ','\t','\r','\n'] → Idle next []
  | skip : Item none used rest → Idle next rest → Idle next (used ++ rest)
  | swallow : OneLine note → Idle next ('/' :: '/' :: (note ++ ['\r']))

-- Behind a lone carriage return the first character of the comment is lost.
def Comment.Harmless (comment : Comment) (next : Char) : Bool → Prop
  | false => comment.Swallows → next ∈ [nul,' ','\t','\r','\n']
  | true => next ≠ '\n' → Idle next comment.text.tail

theorem item_other {rest rest' : Str} (item : Item token used rest) (same : rest'.head? = some '\n' → rest.head? = some '\n') : Item token used rest' := by
  cases item with
  | opened => exact .opened
  | closed => exact .closed
  | space blank => exact .space blank
  | carriage apart => exact .carriage (fun feed => apart (same feed))
  | carriageFeed => exact .carriageFeed
  | block closeless => exact .block closeless
  | line oneLine => exact .line oneLine
  | lineFeed oneLine => exact .lineFeed oneLine
  | lineCarriage oneLine apart => exact .lineCarriage oneLine apart
  | entry keyPart valuePart => exact .entry keyPart valuePart

-- Where the first item of a text is gone through, the rest gives the tree.
theorem item_parsed (item : Item token used rest) (parsed : Ends parseStep ⟨h,block,used ++ rest,line⟩ (.tree tree)) :
    ∃ later q line', token.toList.foldlM applyToken (h,block) = some (later,q) ∧ Ends parseStep ⟨later,q,rest,line'⟩ (.tree tree) := by
  rcases item_goes item h block line with ⟨later,q,line',applied,reaches⟩ | ⟨-,faults | ⟨reason,exits⟩⟩
  · exact ⟨later,q,line',applied,reaches.ends_after parsed⟩
  · exact absurd parsed (fault_stays (n := 1) (by simp [runFor,faults]))
  · have same := ends_same (ends_now exits) parsed
    cases same

theorem parsed_gives (n : Nat) (short : s.length ≤ n) (parsed : Ends parseStep ⟨h,block,s,line⟩ (.tree tree)) : Gives (h,block) s tree := by
  induction n generalizing s h block line with
  | zero =>
      obtain rfl := List.eq_nil_of_length_eq_zero (Nat.le_zero.mp short)
      have same := ends_same (ends_now (stops_done (.inl rfl) h block line)) parsed
      cases same
      exact .stop (.inl rfl)
  | succ n ih =>
      rcases text_shape h block line s with ⟨token,used,rest,item,rfl⟩ | ⟨note,left,rfl⟩ | stops | ⟨reason,exits⟩ | ⟨-,faults⟩
      · obtain ⟨later,q,line',applied,after⟩ := item_parsed item parsed
        have positive := List.length_pos_iff.mpr (item_some item)
        exact .item item applied (ih (by simp only [List.length_append] at short; omega) after)
      · exact absurd parsed (fault_stays (n := 1) (by simp [runFor,left_faults left]))
      · have same := ends_same (ends_now (stops_done stops h block line)) parsed
        cases same
        exact .stop stops
      · have same := ends_same (ends_now exits) parsed
        cases same
      · exact absurd parsed (fault_stays (n := 1) (by simp [runFor,faults]))

theorem gives_parsed (gives : Gives at' s tree) (line : Nat) : Ends parseStep ⟨at'.1,at'.2,s,line⟩ (.tree tree) := by
  induction gives generalizing line with
  | stop stops => exact ends_now (stops_done stops _ _ line)
  | @item token used rest at' later tree item applied _ ih =>
      rcases item_goes item at'.1 at'.2 line with ⟨later',q,line',applied',reaches⟩ | ⟨none',-⟩
      · rw [applied,Option.some.injEq] at applied'
        subst applied'
        exact reaches.ends (ih line')
      · rw [applied] at none'
        cases none'

theorem gives_exact (h : Heap Entry) (block line : Nat) (s : Str) (tree : Heap Entry) :
    Ends parseStep ⟨h,block,s,line⟩ (.tree tree) ↔ Gives (h,block) s tree :=
  ⟨parsed_gives _ (Nat.le_refl _),fun gives => gives_parsed gives line⟩

theorem gives_item (item : Item token used rest) (gives : Gives at' (used ++ rest) tree) :
    ∃ later, token.toList.foldlM applyToken at' = some later ∧ Gives later rest tree := by
  obtain ⟨later,q,line',applied,parsed⟩ := item_parsed item (gives_parsed gives 0)
  exact ⟨(later,q),applied,(gives_exact _ _ _ _ _).mp parsed⟩

theorem gives_skip (item : Item none used rest) (gives : Gives at' (used ++ rest) tree) : Gives at' rest tree := by
  obtain ⟨later,applied,after⟩ := gives_item item gives
  cases applied
  exact after

theorem gives_end (gives : Gives at' [] tree) : tree = at'.1 := by
  have same := ends_same (gives_parsed gives 0) (gives_parsed (.stop (.inl rfl)) 0)
  cases same
  rfl

-- Other text at a place leaves what is in front of it as it was.
theorem upto_gives (upto : Upto front rest) (gives : Gives at' (front ++ rest) tree) : ∃ later, Gives later rest tree ∧
    ∀ other tree', other.head? ≠ some '\n' → Gives later other tree' → Gives at' (front ++ other) tree' := by
  induction upto generalizing at' with
  | here => exact ⟨at',gives,fun _ _ _ other => other⟩
  | @item token used front rest item _ ih =>
      rw [List.append_assoc] at gives
      obtain ⟨later,applied,after⟩ := gives_item item gives
      obtain ⟨last,final,others⟩ := ih after
      refine ⟨last,final,?_⟩
      intro other tree' apart given
      rw [List.append_assoc]
      refine .item (item_other item ?_) applied (others other tree' apart given)
      intro feed
      cases front with
      | nil => exact absurd feed apart
      | cons c front => simpa using feed

theorem comment_head (comment : Comment) (rest : Str) : (comment.text ++ rest).head? ≠ some '\n' := by
  cases comment <;> simp [Comment.text]

-- At a place where a comment takes nothing of the text, the text means the same with it.
theorem comment_gives (comment : Comment) (fits : comment.Swallows → rest.headD nul ∈ [nul,' ','\t','\r','\n']) (clean : nul ∉ rest)
    (gives : Gives at' rest tree) : Gives at' (comment.text ++ rest) tree := by
  cases comment with
  | block note _ closeless => exact .item (.block closeless) rfl gives
  | line note _ oneLine ending =>
      cases ending with
      | feed => exact .item (.line oneLine) rfl gives
      | carriageFeed => exact .item (.lineFeed oneLine) rfl gives
      | carriage =>
          have first := fits rfl
          cases rest with
          | nil =>
              rw [gives_end gives,List.append_nil]
              exact .stop (.inr ⟨note,oneLine,.inr rfl⟩)
          | cons d rest =>
              have swallowed : Comment.text (.line note ‹_› oneLine .carriage) ++ d :: rest = ('/' :: '/' :: (note ++ ['\r',d])) ++ rest := by
                simp [Comment.text,LineEnd.text]
              rw [swallowed]
              have other : d ≠ nul := fun same => clean (by simp [same])
              simp only [List.headD_cons,List.mem_cons,List.not_mem_nil,or_false,other,false_or] at first
              rcases first with rfl | rfl | rfl | rfl
              · exact .item (.lineCarriage oneLine (by decide)) rfl (gives_skip (.space (by simp)) gives)
              · exact .item (.lineCarriage oneLine (by decide)) rfl (gives_skip (.space (by simp)) gives)
              · refine .item (.lineCarriage oneLine (by decide)) rfl ?_
                by_cases feed : rest.head? = some '\n'
                · obtain ⟨tail,rfl⟩ := List.head?_eq_some_iff.mp feed
                  exact .item (.space (by simp)) rfl (gives_skip .carriageFeed gives)
                · exact gives_skip (.carriage feed) gives
              · exact .item (.lineFeed oneLine) rfl (gives_skip (.space (by simp)) gives)

theorem heard_append {front : Str} (clean : nul ∉ front) (rest : Str) : heard (front ++ rest) = front ++ heard rest := by
  refine List.takeWhile_append_of_pos ?_
  intro c member
  have other : c ≠ nul := fun same => clean (same ▸ member)
  simpa using other

theorem comment_clean (comment : Comment) : nul ∉ comment.text := by
  cases comment with
  | block note clean _ => simpa [Comment.text,nul] using clean
  | line note clean _ ending => cases ending <;> simpa [Comment.text,LineEnd.text,nul] using clean

theorem file_gives (h : Heap Entry) (contents : Str) (tree : Heap Entry) :
    fileToTconfig h contents (.tree tree) ↔ Gives (tconfigBlockNew h,h.length) (heard contents) tree :=
  gives_exact _ _ _ _ _

-- What the text behind a '//' comment and its lone carriage return gives, without the character it takes.
def BehindGives (at' : Heap Entry × Nat) (rest : Str) (tree : Heap Entry) : Prop :=
  rest = [] ∧ tree = at'.1 ∨ ∃ d after, rest = d :: after ∧ Gives at' after tree

theorem carriage_gives {note : Str} (oneLine : OneLine note) (apart : rest.head? ≠ some '\n') :
    Gives at' ('/' :: '/' :: (note ++ '\r' :: rest)) tree ↔ BehindGives at' rest tree := by
  cases rest with
  | nil =>
      have stops : Stops ('/' :: '/' :: (note ++ ['\r'])) := .inr ⟨note,oneLine,.inr rfl⟩
      constructor
      · intro gives
        have same := ends_same (gives_parsed gives 0) (gives_parsed (.stop stops) 0)
        cases same
        exact .inl ⟨rfl,rfl⟩
      · rintro (⟨-,rfl⟩ | ⟨_,_,none',-⟩)
        · exact .stop stops
        · cases none'
  | cons d after =>
      have feed : d ≠ '\n' := fun same => apart (by rw [same]; rfl)
      have item : Item none ('/' :: '/' :: (note ++ ['\r',d])) after := .lineCarriage oneLine feed
      have whole : '/' :: '/' :: (note ++ '\r' :: d :: after) = '/' :: '/' :: (note ++ ['\r',d]) ++ after := by simp
      rw [whole]
      constructor
      · intro gives
        exact .inr ⟨d,after,rfl,gives_skip item gives⟩
      · rintro (⟨none',-⟩ | ⟨_,_,same,gives⟩)
        · cases none'
        · cases same
          exact .item item rfl gives

theorem blank_gives (blank : d = ' ' ∨ d = '\t' ∨ d = '\r') (gives : Gives at' after tree) : Gives at' (d :: after) tree := by
  rcases blank with rfl | rfl | rfl
  · have item : Item none [' '] after := .space (by simp)
    exact .item item rfl gives
  · have item : Item none ['\t'] after := .space (by simp)
    exact .item item rfl gives
  · by_cases fed : after.head? = some '\n'
    · obtain ⟨tail,rfl⟩ := List.head?_eq_some_iff.mp fed
      have item : Item none ['\n'] tail := .space (by simp)
      have both : Item none ['\r','\n'] tail := .carriageFeed
      exact .item both rfl (gives_skip item gives)
    · have item : Item none ['\r'] after := .carriage fed
      exact .item item rfl gives

theorem idle_gives {text : Str} (idle : Idle next text) (clean : nul ∉ rest) (first : rest.headD nul = next) (apart : rest.head? ≠ some '\n')
    (gives : BehindGives at' rest tree) : Gives at' (text ++ rest) tree := by
  induction idle with
  | here blank =>
      rcases gives with ⟨rfl,rfl⟩ | ⟨d,after,rfl,gives⟩
      · exact .stop (.inl rfl)
      · obtain rfl : d = next := first
        have other : d ≠ nul := fun same => clean (by simp [same])
        have feed : d ≠ '\n' := fun same => apart (by rw [same]; rfl)
        exact blank_gives (by simpa [other,feed] using blank) gives
  | @skip used left item _ ih =>
      rw [List.append_assoc]
      refine .item (item_other item ?_) rfl ih
      intro fed
      cases left with
      | nil => exact absurd fed apart
      | cons c left => simpa using fed
  | swallow oneLine =>
      simp only [List.cons_append,List.append_assoc,List.nil_append]
      exact (carriage_gives oneLine apart).mpr gives

theorem harmless_transparent (comment : Comment) (behind : Bool) (next : Char) (harmless : comment.Harmless next behind) :
    Transparent comment behind next := by
  intro h front rest tree clean place first parsed
  have inner : nul ∉ front ++ comment.text := by simp [clean,comment_clean comment]
  have other := heard_clean rest
  rw [file_gives,heard_append clean] at parsed
  rw [file_gives,heard_append inner,List.append_assoc]
  rw [nextOf] at first
  generalize heard rest = rest at place first parsed other
  cases place with
  | between upto =>
      obtain ⟨later,given,others⟩ := upto_gives upto parsed
      refine others _ tree (comment_head comment _) (comment_gives comment ?_ other given)
      intro swallows
      rw [first]
      exact harmless swallows
  | behind oneLine apart upto =>
      rename_i note left
      have whole : ∀ text : Str, left ++ '/' :: '/' :: (note ++ ['\r']) ++ text = left ++ '/' :: '/' :: (note ++ '\r' :: text) := by simp
      rw [whole] at parsed
      rw [whole]
      obtain ⟨later,given,others⟩ := upto_gives upto parsed
      have behind := (carriage_gives oneLine apart).mp given
      have fed : next ≠ '\n' := by
        rintro rfl
        cases rest with
        | nil => simp [nul] at first
        | cons d rest => exact apart (by rw [← first]; rfl)
      have reads := idle_gives (harmless fed) other first apart behind
      have starts : ∃ text, comment.text = '/' :: text := by cases comment <;> exact ⟨_,rfl⟩
      obtain ⟨text,same⟩ := starts
      rw [same] at reads ⊢
      refine others _ tree (by simp) ((carriage_gives oneLine (by simp)).mpr ?_)
      exact .inr ⟨'/',text ++ rest,rfl,reads⟩

-- Files that a swallowed character changes.
def fresh : Heap Entry × Nat := (tconfigBlockNew [],0)

def lone (key value : Str) : Heap Entry := [some ⟨⟨some key,some value⟩,none,none,none,none⟩]

-- A block in it is open, and one in that.
def openedOnce : Heap Entry × Nat := ([some ⟨.blank,none,none,none,some 1⟩,some ⟨.blank,none,none,some 0,none⟩],1)

def openedTwice : Heap Entry × Nat :=
  ([some ⟨.blank,none,none,none,some 1⟩,some ⟨.blank,none,none,some 0,some 2⟩,some ⟨.blank,none,none,some 1,none⟩],2)

theorem entry_tree (keyPart : KeyPart key one) (valuePart : ValuePart value two) (tree : Heap Entry) :
    Gives fresh (one ++ two) tree ↔ tree = lone key.text value.text := by
  have item : Item (some (.entry key value)) (one ++ two) [] := .entry keyPart valuePart
  have applied : (some (Token.entry key value)).toList.foldlM applyToken fresh = some (lone key.text value.text,0) := rfl
  constructor
  · intro gives
    rw [← List.append_nil (one ++ two)] at gives
    obtain ⟨later,applied',after⟩ := gives_item item gives
    rw [applied,Option.some.injEq] at applied'
    subst applied'
    exact gives_end after
  · rintro rfl
    have gives := Gives.item item applied (.stop (.inl rfl))
    rwa [List.append_nil] at gives

-- The comment and the character after it say nothing.
theorem swallowed_gives {note front rest : Str} (oneLine : OneLine note) (clean : nul ∉ note) (plain : nul ∉ front ++ next :: rest)
    (transparent : Transparent (.line note clean oneLine .carriage) false next) (upto : Upto front (next :: rest))
    (gives : Gives fresh (front ++ next :: rest) tree) :
    Gives fresh (front ++ ('/' :: '/' :: (note ++ ['\r',next]) ++ rest)) tree := by
  have inside : nul ∉ front := fun member => plain (List.mem_append_left _ member)
  have behind : nul ∉ next :: rest := fun member => plain (List.mem_append_right _ member)
  have all : ∀ s, nul ∉ s → heard s = s := by
    intro s clean
    have whole := heard_append clean []
    simpa [heard] using whole
  have parsed := transparent [] front (next :: rest) tree inside (.between (by rwa [all _ behind])) (by rw [nextOf,all _ behind]; rfl)
  rw [file_gives,file_gives,all _ plain] at parsed
  have read := parsed gives
  have inner : nul ∉ front ++ Comment.text (.line note clean oneLine .carriage) := by
    intro member
    rcases List.mem_append.mp member with early | late
    · exact inside early
    · exact comment_clean _ late
  rw [heard_append inner,all _ behind] at read
  simpa [Comment.text,LineEnd.text,fresh] using read

theorem swallows_breaks {note : Str} (oneLine : OneLine note) (clean : nul ∉ note) (apart : next ∉ [nul,' ','\t','\r','\n']) :
    ¬Transparent (.line note clean oneLine .carriage) false next := by
  intro transparent
  simp only [List.mem_cons,List.not_mem_nil,or_false,not_or] at apart
  obtain ⟨notNul,space,tab,carriage,feed⟩ := apart
  have swallow : ∀ (at' : Heap Entry × Nat) (rest : Str) (tree : Heap Entry), Gives at' ('/' :: '/' :: (note ++ ['\r',next]) ++ rest) tree → Gives at' rest tree :=
    fun _ _ _ gives => gives_skip (.lineCarriage oneLine feed) gives
  have fromFront : ∀ (rest : Str) (tree : Heap Entry), nul ∉ rest → Gives fresh (next :: rest) tree → Gives fresh rest tree := by
    intro rest tree plain gives
    have inside : nul ∉ [] ++ next :: rest := by simp [Ne.symm notNul,plain]
    exact swallow _ _ _ (swallowed_gives oneLine clean inside transparent .here gives)
  by_cases brace : next = '{'
  · subst brace
    -- the block is not openedOnce
    have opens : (some Token.opened).toList.foldlM applyToken fresh = some openedOnce := rfl
    have gives : Gives fresh (['{'] ++ []) openedOnce.1 := .item .opened opens (.stop (.inl rfl))
    have same := gives_end (fromFront [] _ (by simp) gives)
    revert same
    decide
  by_cases close : next = '}'
  · subst close
    -- the block stays open, and the next one is openedOnce in it
    have opens : (some Token.opened).toList.foldlM applyToken fresh = some openedOnce := rfl
    have closes : (some Token.closed).toList.foldlM applyToken openedOnce = some (openedOnce.1,0) := rfl
    have again : (some Token.opened).toList.foldlM applyToken (openedOnce.1,0) = some openedOnce := rfl
    have descends : (some Token.opened).toList.foldlM applyToken openedOnce = some openedTwice := rfl
    have gives : Gives fresh (['{'] ++ (['}'] ++ (['{'] ++ []))) openedOnce.1 :=
      .item .opened opens (.item .closed closes (.item .opened again (.stop (.inl rfl))))
    have upto : Upto (['{'] ++ []) ('}' :: ['{']) := .item .opened .here
    have read := swallowed_gives oneLine clean (by decide) transparent upto gives
    obtain ⟨later,applied,after⟩ := gives_item .opened read
    rw [opens,Option.some.injEq] at applied
    subst applied
    obtain ⟨later,applied,after⟩ := gives_item (.opened : Item _ _ []) (swallow _ _ _ after)
    rw [descends,Option.some.injEq] at applied
    subst applied
    have same := gives_end after
    revert same
    decide
  by_cases slash : next = '/'
  · subst slash
    -- the other slash is left alone
    have empty : OneLine [] := by simp [OneLine]
    have gives : Gives fresh (['/','/','\n'] ++ []) fresh.1 := .item (.line empty) rfl (.stop (.inl rfl))
    have parsed := gives_parsed (fromFront ['/','\n'] _ (by decide) gives) 1
    have exits : parseStep ⟨fresh.1,fresh.2,['/','\n'],1⟩ = .done (.exit (.straySlash 1)) := rfl
    have same := ends_same (ends_now exits) parsed
    cases same
  have valuePart : ValuePart ⟨['b'],true⟩ (['b'] ++ ['\n']) := .bare (by decide) (by decide) (by decide)
  by_cases quote : next = '"'
  · subst quote
    -- the quote after the key becomes part of it
    have quoted : KeyPart ⟨['a'],false⟩ ('"' :: (['a'] ++ '"' :: [' '])) := .quoted (by decide) (by decide)
    have bare : KeyPart ⟨['a','"'],true⟩ (['a','"'] ++ [' ']) := .bare (by decide) (by decide) (by decide) (by decide)
    have gives := (entry_tree quoted valuePart _).mpr rfl
    have same := (entry_tree bare valuePart _).mp (fromFront _ _ (by decide) gives)
    simp [lone] at same
  · -- the key loses its fresh character
    have goes : isBlank next = false := by simp [isBlank,space,tab]
    have whole : KeyPart ⟨[next,'a'],true⟩ ([next,'a'] ++ [' ']) := by
      refine .bare (by simp [brace,close,slash,quote,carriage,feed]) ?_ (by decide) (by decide)
      intro d member
      simp only [List.mem_cons,List.not_mem_nil,or_false] at member
      rcases member with rfl | rfl
      · exact goes
      · decide
    have bare : KeyPart ⟨['a'],true⟩ (['a'] ++ [' ']) := .bare (by decide) (by decide) (by decide) (by decide)
    have gives := (entry_tree whole valuePart _).mpr rfl
    have same := (entry_tree bare valuePart _).mp (fromFront _ _ (by decide) gives)
    simp [lone] at same

-- What a token leaves in the blank first block stays there.
def Told (h : Heap Entry) : Prop := 1 < h.length ∨ ∃ n, cell h 0 = some n ∧ n.label ≠ .blank

theorem fresh_cell (live : cell fresh.1 p = some n) : n.label = .blank ∧ n.child = none ∧ n.parent = none := by
  have inside := cell_bound live
  obtain rfl : p = 0 := by
    simp [fresh,tconfigBlockNew] at inside
    omega
  cases live
  exact ⟨rfl,rfl,rfl⟩

theorem told_store (told : Told h) (live : cell h p = some n) {m : Node Entry} (label : m.label = n.label ∨ m.label ≠ .blank) :
    Told (store h p m) := by
  rcases told with more | ⟨first,here,filled⟩
  · exact .inl (by simpa using more)
  · by_cases same : p = 0
    · subst same
      rw [here] at live
      cases live
      refine .inr ⟨m,cell_store (cell_bound here) m,?_⟩
      rcases label with kept | new
      · rwa [kept]
      · exact new
    · exact .inr ⟨first,by rw [cell_store_other m (Ne.symm same)]; exact here,filled⟩

theorem told_more (some' : 0 < h.length) (n m : Node Entry) (p : Nat) : Told (store (alloc h n) p m) := .inl (by simp; omega)

theorem walkOn_hit {found : Entry → Bool} (walked : walkOn h found fuel p passed = some (some q,last)) :
    ∃ n, cell h q = some n ∧ found n.label = true := by
  induction fuel generalizing p passed with
  | zero => cases p <;> cases walked
  | succ fuel ih =>
      cases p with
      | none => cases walked
      | some p =>
          obtain ⟨n,live,walked⟩ := Option.bind_eq_some_iff.mp walked
          split at walked
          · rename_i hit
            cases walked
            exact ⟨n,live,hit⟩
          · exact ih walked

theorem token_told (applied : applyToken (h,block) token = some later) (some' : 0 < h.length) :
    0 < later.1.length ∧ (Told h → Told later.1) ∧ (h = fresh.1 → Told later.1) := by
  cases token with
  | opened =>
      obtain ⟨n,live,applied⟩ := Option.bind_eq_some_iff.mp applied
      split at applied
      · rename_i child there
        cases applied
        refine ⟨some',id,?_⟩
        rintro rfl
        obtain ⟨-,leaf,-⟩ := fresh_cell live
        rw [leaf] at there
        cases there
      · cases applied
        have more := told_more some' ⟨Entry.blank,none,none,some block,none⟩ { n with child := some h.length } block
        exact ⟨by simp,fun _ => more,fun _ => more⟩
  | closed =>
      obtain ⟨parent,closes,applied⟩ := Option.bind_eq_some_iff.mp applied
      obtain ⟨b,rfl,rfl⟩ := Option.map_eq_some_iff.mp applied
      refine ⟨some',id,?_⟩
      rintro rfl
      obtain ⟨first,-,closes⟩ := Option.bind_eq_some_iff.mp closes
      obtain ⟨n,live,closes⟩ := Option.bind_eq_some_iff.mp closes
      have top := (fresh_cell live).2.2
      simp [top] at closes
  | entry key value =>
      obtain ⟨first,-,applied⟩ := Option.bind_eq_some_iff.mp applied
      obtain ⟨⟨found,last⟩,walked,applied⟩ := Option.bind_eq_some_iff.mp applied
      cases found with
      | some search =>
          cases applied
          refine ⟨some',id,?_⟩
          rintro rfl
          obtain ⟨n,live,hit⟩ := walkOn_hit walked
          rw [(fresh_cell live).1] at hit
          cases hit
      | none =>
          obtain ⟨last,-,applied⟩ := Option.bind_eq_some_iff.mp applied
          obtain ⟨n,live,applied⟩ := Option.bind_eq_some_iff.mp applied
          split at applied
          · cases applied
            refine ⟨by simpa using some',fun told => told_store told live (.inr (by simp [Entry.blank])),?_⟩
            rintro rfl
            have inside := cell_bound live
            obtain rfl : last = 0 := by
              simp [fresh,tconfigBlockNew] at inside
              omega
            exact .inr ⟨_,cell_store inside _,by simp [Entry.blank]⟩
          · cases applied
            have more := told_more some' ⟨⟨some key.text,some value.text⟩,some last,none,none,none⟩ { n with next := some h.length } last
            exact ⟨by simp,fun _ => more,fun _ => more⟩

theorem gives_told (gives : Gives at' s tree) (some' : 0 < at'.1.length) (told : Told at'.1) : Told tree := by
  induction gives with
  | stop _ => exact told
  | @item token _ _ at' later _ _ applied _ ih =>
      cases token with
      | none =>
          cases applied
          exact ih some' told
      | some token =>
          have applied : applyToken at' token = some later := by simpa using applied
          obtain ⟨some',kept,-⟩ := token_told applied some'
          exact ih some' (kept told)

-- A text that leaves the first block blank starts with nothing that says anything.
theorem blank_start (item : Item token used rest) (gives : Gives fresh (used ++ rest) fresh.1) : token = none := by
  obtain ⟨later,applied,after⟩ := gives_item item gives
  cases token with
  | none => rfl
  | some token =>
      have applied : applyToken fresh token = some later := by simpa using applied
      obtain ⟨some',-,told⟩ := token_told applied (by decide)
      rcases gives_told after some' (told rfl) with more | ⟨n,live,filled⟩
      · exact absurd more (by decide)
      · exact absurd (fresh_cell live).1 filled

-- A text that ends with its line, as a '//' comment does, or is empty.
def Lined (s : Str) : Prop := ∀ c ∈ s.getLast?, c = '\r' ∨ c = '\n'

theorem lined_rest {front s : Str} (lined : Lined (front ++ s)) : Lined s := by
  intro c last
  refine lined c ?_
  rw [List.getLast?_append,Option.mem_def.mp last]
  rfl

-- With nothing but one character behind it.
def Follows (next : Char) (rest : Str) : Prop := rest = [] ∧ next = nul ∨ rest = [next]

theorem last_parts {front s : Str} (same : front ++ [c] = s ++ [d]) : front = s ∧ c = d := by
  obtain ⟨first,last⟩ := List.append_inj' same rfl
  exact ⟨first,by simpa using last⟩

-- An item that takes the character behind the text as well.
theorem item_last (lined : Lined s) (apart : next ≠ '\n') (item : Item none used rest) (whole : used = s ++ [next]) : Idle next s := by
  have broken : ∀ front : Str, s = front ++ ['*'] → False := by
    rintro front rfl
    have last := lined '*' (by simp)
    simp at last
  cases item with
  | @space c _ blank =>
      obtain ⟨rfl,rfl⟩ := last_parts (show [] ++ [c] = s ++ [next] from whole)
      refine .here ?_
      simp only [List.mem_cons,List.not_mem_nil,or_false] at blank ⊢
      rcases blank with rfl | rfl | rfl <;> simp
  | carriage _ =>
      obtain ⟨rfl,rfl⟩ := last_parts (show [] ++ ['\r'] = s ++ [next] from whole)
      exact .here (by simp)
  | carriageFeed =>
      obtain ⟨-,rfl⟩ := last_parts (show ['\r'] ++ ['\n'] = s ++ [next] from whole)
      exact absurd rfl apart
  | @block note _ _ =>
      obtain ⟨same,-⟩ := last_parts (show ('/' :: '*' :: (note ++ ['*'])) ++ ['/'] = s ++ [next] by simpa using whole)
      exact (broken ('/' :: '*' :: note) same.symm).elim
  | @line note _ _ =>
      obtain ⟨-,rfl⟩ := last_parts (show ('/' :: '/' :: note) ++ ['\n'] = s ++ [next] from whole)
      exact absurd rfl apart
  | @lineFeed note _ _ =>
      obtain ⟨-,rfl⟩ := last_parts (show ('/' :: '/' :: (note ++ ['\r'])) ++ ['\n'] = s ++ [next] by simpa using whole)
      exact absurd rfl apart
  | @lineCarriage note d _ oneLine _ =>
      obtain ⟨rfl,rfl⟩ := last_parts (show ('/' :: '/' :: (note ++ ['\r'])) ++ [d] = s ++ [next] by simpa using whole)
      exact .swallow oneLine

-- And one that the text ends in.
theorem stops_last (lined : Lined s) (follows : Follows next rest) (stops : Stops (s ++ rest)) : Idle next s := by
  have unbroken : ∀ note : Str, OneLine note → s ≠ [] → ∀ more, s ++ more = '/' :: '/' :: note → False := by
    intro note oneLine some' more same
    have member : s.getLast some' ∈ '/' :: '/' :: note := by
      rw [← same]
      exact List.mem_append_left _ (List.getLast_mem some')
    have ends := lined _ (List.getLast?_eq_getLast_of_ne_nil some')
    simp only [List.mem_cons] at member
    rcases member with slash | slash | inside
    · rw [slash] at ends
      simp at ends
    · rw [slash] at ends
      simp at ends
    · rcases ends with carriage | feed
      · exact (oneLine _ inside).1 carriage
      · exact (oneLine _ inside).2 feed
  have short : rest.length < 2 := by
    rcases follows with ⟨rfl,-⟩ | rfl
    · simp
    · simp
  rcases stops with none' | ⟨note,oneLine,same | same⟩
  · obtain ⟨rfl,rfl⟩ := List.append_eq_nil_iff.mp none'
    rcases follows with ⟨-,rfl⟩ | none'
    · exact .here (by simp)
    · cases none'
  · by_cases some' : s = []
    · subst some'
      rw [List.nil_append] at same
      rw [same] at short
      simp only [List.length_cons] at short
      omega
    · exact (unbroken note oneLine some' rest same).elim
  · rcases follows with ⟨rfl,-⟩ | rfl
    · rw [List.append_nil] at same
      rw [same]
      exact .swallow oneLine
    · obtain ⟨same,-⟩ := last_parts (show s ++ [next] = ('/' :: '/' :: note) ++ ['\r'] from same)
      refine (unbroken note oneLine ?_ [] (by simpa using same)).elim
      rw [same]
      simp

theorem gives_idle (lined : Lined s) (follows : Follows next rest) (apart : next ≠ '\n') (gives : Gives fresh (s ++ rest) fresh.1) :
    Idle next s := by
  generalize bound : s.length = n
  induction n using Nat.strongRecOn generalizing s with
  | ind n ih =>
      generalize whole : s ++ rest = all at gives
      generalize blank : fresh = first at gives
      generalize left : fresh.1 = tree at gives
      cases gives with
      | stop stops => exact stops_last lined follows (by rwa [whole])
      | @item token used rest' _ _ _ item applied after =>
          subst blank
          subst left
          obtain rfl := blank_start item (.item item applied after)
          cases applied
          rcases List.append_eq_append_iff.mp whole.symm with ⟨more,rfl,rfl⟩ | ⟨more,rfl,rfl⟩
          · have positive := List.length_pos_iff.mpr (item_some item)
            simp only [List.length_append] at bound
            refine .skip (item_other item ?_) (ih more.length (by omega) (lined_rest lined) after rfl)
            intro fed
            cases more with
            | nil => cases fed
            | cons c more => simpa using fed
          · cases more with
            | nil =>
                have positive := List.length_pos_iff.mpr (item_some item)
                rw [List.append_nil] at item positive
                have last : Idle next [] := ih 0 (by omega) (by simp [Lined]) (by simpa using after) rfl
                have skipped : Idle next (s ++ []) := .skip (item_other item (by simp)) last
                rwa [List.append_nil] at skipped
            | cons c more =>
                rcases follows with ⟨none',-⟩ | same
                · cases none'
                · obtain ⟨rfl,none'⟩ := List.cons.inj same
                  obtain ⟨rfl,-⟩ := List.append_eq_nil_iff.mp none'
                  exact item_last lined apart item rfl

theorem lined_end (broken : c = '\r' ∨ c = '\n') (front : Str) : Lined (front ++ [c]) := by
  intro d last
  obtain rfl : c = d := by simpa using last
  exact broken

theorem text_lined (note : Str) (ending : LineEnd) : Lined ('/' :: (note ++ ending.text)) := by
  cases ending with
  | feed => exact lined_end (.inr rfl) ('/' :: note)
  | carriage => exact lined_end (.inl rfl) ('/' :: note)
  | carriageFeed =>
      have whole : '/' :: (note ++ LineEnd.carriageFeed.text) = '/' :: (note ++ ['\r']) ++ ['\n'] := by simp [LineEnd.text]
      rw [whole]
      exact lined_end (.inr rfl) _

-- A '/*' comment without its first character starts a key.
theorem star_item (item : Item token used rest) (whole : used ++ rest = '*' :: more) : token ≠ none := by
  rintro rfl
  cases item with
  | space blank =>
      obtain ⟨rfl,-⟩ := List.cons.inj whole
      simp at blank
  | _ => simp at whole

-- "//", a lone carriage return and the character, in which nothing is said.
theorem behind_breaks (comment : Comment) (transparent : Transparent comment true next) (apart : next ≠ '\n') : Idle next comment.text.tail := by
  have empty : OneLine [] := by simp [OneLine]
  obtain ⟨rest,follows,clean,first⟩ : ∃ rest, Follows next rest ∧ heard rest = rest ∧ nextOf rest = next := by
    by_cases ended : next = nul
    · subst ended
      exact ⟨[],.inl ⟨rfl,rfl⟩,rfl,rfl⟩
    · refine ⟨[next],.inr rfl,by simp [heard,ended],by simp [nextOf,heard,ended]⟩
  have fed : rest.head? ≠ some '\n' := by
    rcases follows with ⟨rfl,-⟩ | rfl
    · simp
    · simpa using apart
  have place : Place true ['/','/','\r'] (heard rest) := by
    rw [clean]
    exact .behind empty fed .here
  have front : nul ∉ ['/','/','\r'] := by decide
  have gives : Gives fresh ('/' :: '/' :: ([] ++ '\r' :: rest)) fresh.1 := by
    refine (carriage_gives empty fed).mpr ?_
    rcases follows with ⟨rfl,-⟩ | rfl
    · exact .inl ⟨rfl,rfl⟩
    · exact .inr ⟨next,[],rfl,.stop (.inl rfl)⟩
  have parsed := transparent [] ['/','/','\r'] rest fresh.1 front place first (by
    rw [file_gives,heard_append front,clean]
    exact gives)
  have inner : nul ∉ ['/','/','\r'] ++ comment.text := by
    intro member
    rcases List.mem_append.mp member with early | late
    · exact front early
    · exact comment_clean comment late
  rw [file_gives,heard_append inner,clean] at parsed
  have starts : ∃ more, comment.text = '/' :: more := by cases comment <;> exact ⟨_,rfl⟩
  obtain ⟨more,same⟩ := starts
  rw [same] at parsed ⊢
  have reads : BehindGives fresh ('/' :: (more ++ rest)) fresh.1 := (carriage_gives empty (by simp)).mp (by simpa [fresh] using parsed)
  rcases reads with ⟨none',-⟩ | ⟨_,_,slash,reads⟩
  · cases none'
  · cases slash
    cases comment with
    | line note _ _ ending =>
        cases same
        exact gives_idle (text_lined note ending) follows apart reads
    | block note _ _ =>
        cases same
        generalize whole : '*' :: (note ++ ['*','/']) ++ rest = all at reads
        generalize blank : fresh = first at reads
        generalize left : fresh.1 = tree at reads
        cases reads with
        | stop stops =>
            subst whole
            rcases stops with none' | ⟨_,_,slash | slash⟩
            · cases none'
            · simp at slash
            · simp at slash
        | item item applied after =>
            subst blank
            subst left
            exact absurd (blank_start item (.item item applied after)) (star_item item whole.symm)

-- A comment changes no tree, unless it ends with a lone carriage return and what stands there is neither
-- blank nor the end of the file, or it stands right behind such a comment and says something without its
-- first character.
theorem comments_transparent (comment : Comment) (behind : Bool) (next : Char) :
    Transparent comment behind next ↔ comment.Harmless next behind := by
  refine ⟨?_,harmless_transparent comment behind next⟩
  intro transparent
  cases behind with
  | true => exact fun apart => behind_breaks comment transparent apart
  | false =>
      intro swallows
      cases comment with
      | block => cases swallows
      | line note clean oneLine ending =>
          obtain rfl : ending = .carriage := swallows
          by_contra apart
          exact swallows_breaks oneLine clean apart transparent

-- "// c\r" in front of "{".
theorem brace_swallowed : ¬∀ (comment : Comment) (behind : Bool) (next : Char), Transparent comment behind next := by
  intro claim
  have clean : nul ∉ [' ','c'] := by decide
  have oneLine : OneLine [' ','c'] := by simp [OneLine]
  exact swallows_breaks oneLine clean (by decide) (claim (.line [' ','c'] clean oneLine .carriage) false '{')

end Trollbot.Tconfig

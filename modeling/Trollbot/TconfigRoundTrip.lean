import Trollbot.TconfigLevel
import Mathlib.Data.List.TakeWhile

namespace Trollbot.Tconfig
open CBuffer Linked Machine

-- A key or value the file format can carry.
def Plain (s : Str) : Prop := s ≠ [] ∧ ∀ c ∈ s, c ≠ nul ∧ c ≠ '\r' ∧ c ≠ '\n' ∧ c ≠ '"'

-- A key that is not quoted must not look like a brace or a comment.
def PlainKey (key : Str) : Prop :=
  Plain key ∧ (' ' ∉ key → '\t' ∉ key → ∀ c ∈ key.head?, c ≠ '{' ∧ c ≠ '}' ∧ c ≠ '/')

def Entry.Written (e : Entry) : Prop := ∃ key value, e = ⟨some key,some value⟩ ∧ PlainKey key ∧ Plain value

-- No two siblings with the same key and value, at any depth.
def NormalForm : Forest Entry → Prop
  | .nil => True
  | .cons e children rest => e.Written ∧ e ∉ rest.row ∧ NormalForm children ∧ NormalForm rest

-- What a value has to be like for the format to carry it. A quote only gets through in a text that
-- is not quoted, after its first character.
def Legible (s : Str) : Prop :=
  s ≠ [] ∧ (∀ c ∈ s, c ≠ nul ∧ c ≠ '\r' ∧ c ≠ '\n') ∧ ('"' ∈ s → s.head? ≠ some '"' ∧ ∀ c ∈ s, isBlank c = false)

def Entry.Carried (e : Entry) : Prop := ∃ key value, e = ⟨some key,some value⟩ ∧ PlainKey key ∧ Legible value

def Carried : Forest Entry → Prop
  | .nil => True
  | .cons e children rest => e.Carried ∧ e ∉ rest.row ∧ Carried children ∧ Carried rest

def Filled (e : Entry) : Prop := ∃ key value, e = ⟨some key,some value⟩

theorem Plain.legible (plain : Plain s) : Legible s := by
  refine ⟨plain.1,fun c member => ⟨(plain.2 c member).1,(plain.2 c member).2.1,(plain.2 c member).2.2.1⟩,?_⟩
  intro quote
  exact absurd rfl (plain.2 _ quote).2.2.2

theorem NormalForm.carried (normal : NormalForm b) : Carried b := by
  induction b with
  | nil => trivial
  | cons e children rest ihChildren ihRest =>
      obtain ⟨⟨key,value,same,plainKey,plain⟩,new,below,after⟩ := normal
      exact ⟨⟨key,value,same,plainKey,plain.legible⟩,new,ihChildren below,ihRest after⟩

theorem Carried.filled (carried : Carried b) : ∀ e ∈ b.labels, Filled e := by
  induction b with
  | nil => simp [Forest.labels]
  | cons e children rest ihChildren ihRest =>
      obtain ⟨⟨key,value,same,-,-⟩,-,below,after⟩ := carried
      intro other member
      simp only [Forest.labels,List.mem_cons,List.mem_append] at member
      rcases member with rfl | inside | later
      · exact ⟨key,value,same⟩
      · exact ihChildren below other inside
      · exact ihRest after other later

def entryText (depth : Nat) (e : Entry) : Str := lineText depth (e.key.getD []) (e.value.getD [])

-- What the writer makes of a forest.
def text (depth : Nat) : Forest Entry → Str
  | .nil => []
  | .cons e .nil rest => entryText depth e ++ text depth rest
  | .cons e children rest =>
    '\n' :: entryText depth e ++ indent depth ++ ['{','\n'] ++ text (depth + 1) children ++
      indent depth ++ ['}','\n','\n'] ++ text depth rest

-- A finished level below another one: the writer closes it and is back at the parent.
theorem climb_out {h : Heap Entry} {children : Placed Entry} (rep : Rep h none (some p) none children)
    (separate : Separate children) (last : lastOf none children = some q) (depth : Nat) (out : Str) :
    writeStep h (.climb (depth + 1) q out) = .next (.climb depth p (out ++ indent depth ++ ['}','\n','\n'])) := by
  obtain ⟨n,here,ended⟩ := last_cell rep last
  cases children with
  | nil => cases last
  | cons label below rest =>
      obtain ⟨c,e⟩ := label
      obtain ⟨q',same,member⟩ := lastOf_cons none (c,e) below rest
      obtain rfl := Option.some.inj (last.symm.trans same)
      have back : walkBack h (fun n => n.parent.isSome) h.length q = some c := by
        refine walkBack_head rep separate ?_ ?_ member
        · intro n _ none
          simp [none]
        · intro n _ some
          simp [some]
      simp [writeStep,here,ended,back,rep.1]

-- Siblings below another block are written, and the loop is at the last one.
def WritesBelow (h : Heap Entry) (b : Placed Entry) : Prop :=
  ∀ prev parent q, Rep h prev parent none b → lastOf none b = some q → ∀ depth out,
    Reaches (writeStep h) (.visit (depth + 1) (head b) out) (.climb (depth + 1) q (out ++ text (depth + 1) (bare b)))

-- A block and its children, up to where the loop decides how to go on.
theorem write_block {children : Placed Entry} (here : cell h p = some ⟨⟨some key,some value⟩,prev,next,parent,head children⟩)
    (below : Rep h none (some p) none children) (separate : Separate children) (some' : children ≠ .nil)
    (writes : WritesBelow h children) (depth : Nat) (out : Str) :
    Reaches (writeStep h) (.visit depth (some p) out)
      (.climb depth p (out ++ text depth (.one ⟨some key,some value⟩ (bare children)))) := by
  cases children with
  | nil => exact absurd rfl some'
  | cons first more final =>
      obtain ⟨c,inner⟩ := first
      obtain ⟨q,last,-⟩ := lastOf_cons none (c,inner) more final
      have taken : writeStep h (.visit depth (some p) out) = .next (.visit (depth + 1) (some c)
          (out ++ '\n' :: lineText depth key value ++ indent depth ++ ['{','\n'])) := by
        simp [writeStep,here]
      have leaves := climb_out below separate last depth
        (out ++ '\n' :: lineText depth key value ++ indent depth ++ ['{','\n'] ++ text (depth + 1) (bare (.cons (c,inner) more final)))
      have written := (Reaches.one taken).trans ((writes none (some p) q below last depth _).trans (.one leaves))
      simpa [text,entryText,Forest.one] using written

theorem write_next {children : Placed Entry} (here : cell h p = some ⟨⟨some key,some value⟩,prev,some next,parent,head children⟩)
    (below : Rep h none (some p) none children) (separate : Separate children) (writes : WritesBelow h children) (depth : Nat) (out : Str) :
    Reaches (writeStep h) (.visit depth (some p) out)
      (.visit depth (some next) (out ++ text depth (.one ⟨some key,some value⟩ (bare children)))) := by
  by_cases leaf : children = .nil
  · subst leaf
    refine .one ?_
    simp [writeStep,here,text,entryText,Forest.one]
  · refine (write_block here below separate leaf writes depth out).trans (.one ?_)
    simp [writeStep,here]

theorem text_one (depth : Nat) (e : Entry) (children rest : Forest Entry) :
    text depth (.cons e children rest) = text depth (.one e children) ++ text depth rest := by
  cases children <;> simp [text,Forest.one]

theorem text_append (depth : Nat) (a b : Forest Entry) : text depth (a.append b) = text depth a ++ text depth b := by
  induction a with
  | nil => rfl
  | cons e children rest _ ih =>
      rw [Forest.append,text_one,ih,text_one depth e children rest,List.append_assoc]

theorem write_level {h : Heap Entry} {b : Placed Entry} (separate : Separate b) (filled : ∀ e ∈ (bare b).labels, Filled e) :
    WritesBelow h b ∧ ∀ (y : Placed Entry) (prev parent : Option Nat), y ≠ .nil → Rep h prev parent none (b.append y) → ∀ depth out,
      Reaches (writeStep h) (.visit depth (head (b.append y)) out) (.visit depth (head y) (out ++ text depth (bare b))) := by
  induction b with
  | nil =>
      refine ⟨fun _ _ _ _ last => (by cases last),?_⟩
      intro y prev parent _ _ depth out
      simpa [text] using Reaches.refl
  | cons label children rest ihChildren ihRest =>
      obtain ⟨p,e⟩ := label
      obtain ⟨partsBelow,partsRest⟩ := separate_parts separate
      obtain ⟨key,value,rfl⟩ : Filled e := filled e (by simp [Forest.labels])
      obtain ⟨writes,-⟩ := ihChildren partsBelow (fun e member => filled e (by simp [Forest.labels,member]))
      obtain ⟨ends,goes⟩ := ihRest partsRest (fun e member => filled e (by simp [Forest.labels,member]))
      constructor
      · intro prev parent q rep last depth out
        have here := rep.1
        cases rest with
        | nil =>
            cases last
            by_cases leaf : children = .nil
            · subst leaf
              refine .one ?_
              simp [writeStep,here,text,entryText]
            · exact write_block here rep.2.1 partsBelow leaf writes (depth + 1) out
        | cons second more final =>
            have first := write_next here rep.2.1 partsBelow writes (depth + 1) out
            have later := ends (some p) none q rep.2.2 last depth
              (out ++ text (depth + 1) (.one ⟨some key,some value⟩ (bare children)))
            rw [bare_cons,text_one,← List.append_assoc]
            exact first.trans later
      · intro y prev parent some' rep depth out
        obtain ⟨here,below,after⟩ := rep
        obtain ⟨next,headed⟩ : ∃ next, head (rest.append y) = some next := by
          cases rest with
          | nil =>
              cases y with
              | nil => exact absurd rfl some'
              | cons label children rest => exact ⟨label.1,rfl⟩
          | cons label children more => exact ⟨label.1,rfl⟩
        rw [headed] at here
        have first := write_next here below partsBelow writes depth out
        have later := goes y (some p) none some' after depth (out ++ text depth (.one ⟨some key,some value⟩ (bare children)))
        rw [headed] at later
        rw [bare_cons,text_one,← List.append_assoc]
        exact first.trans later

-- Where every block has a key and a value, the whole text is written.
theorem write_all {h : Heap Entry} {a : Placed Entry} (rep : Rep h none none none a) (separate : Separate a)
    (filled : ∀ e ∈ (bare a).labels, Filled e) (first : head a = some tcfg) : tconfigToFile h tcfg (text 0 (bare a)) := by
  obtain ⟨x,q,e,below,rfl⟩ := last_split a (by rintro rfl; cases first)
  have partsBelow := (separate_node separate).1
  have partsFront : Separate x := by
    simp only [Separate,addresses_append,List.nodup_append] at separate
    exact separate.1
  have inside : ∀ other, other ∈ (bare x).labels ∨ other = e ∨ other ∈ (bare below).labels → Filled other := by
    intro other member
    refine filled other ?_
    simpa [Forest.one,Forest.labels] using member
  obtain ⟨key,value,rfl⟩ : Filled e := inside e (.inr (.inl rfl))
  have front := (write_level partsFront (fun other member => inside other (.inl member))).2 (.one (q,⟨some key,some value⟩) below) none none
    (by simp [Forest.one]) rep 0 []
  have writes := (write_level (h := h) partsBelow (fun other member => inside other (.inr (.inr member)))).1
  obtain ⟨here,deeper⟩ := rep_node rep
  have whole : text 0 (bare (x.append (.one (q,⟨some key,some value⟩) below))) =
      text 0 (bare x) ++ text 0 (.one ⟨some key,some value⟩ (bare below)) := by
    rw [bare_append,text_append]
    rfl
  rw [first] at front
  rw [whole]
  refine front.ends ?_
  by_cases leaf : below = .nil
  · subst leaf
    refine ends_now ?_
    simp [Forest.one,writeStep,here,text,entryText]
  · refine (write_block here deeper partsBelow leaf writes 0 _).ends (ends_now ?_)
    simp [writeStep,here]

-- A block without a key or a value stops the writer.
theorem write_stops {h : Heap Entry} {b : Placed Entry} (separate : Separate b) (rep : Rep h prev parent none b)
    (unfilled : ∃ e ∈ (bare b).labels, ¬Filled e) (depth : Nat) (out : Str) :
    ∃ st, Reaches (writeStep h) (.visit depth (head b) out) st ∧ writeStep h st = .fault := by
  induction b generalizing prev parent depth out with
  | nil =>
      obtain ⟨e,member,-⟩ := unfilled
      cases member
  | cons label children rest ihChildren ihRest =>
      obtain ⟨p,e⟩ := label
      obtain ⟨partsBelow,partsRest⟩ := separate_parts separate
      obtain ⟨here,below,after⟩ := rep
      by_cases filled : Filled e
      · obtain ⟨key,value,rfl⟩ := filled
        by_cases deeper : ∃ e ∈ (bare children).labels, ¬Filled e
        · cases children with
          | nil =>
              obtain ⟨e,member,-⟩ := deeper
              cases member
          | cons first more final =>
              obtain ⟨st,walked,faults⟩ := ihChildren partsBelow below deeper (depth + 1)
                (out ++ '\n' :: lineText depth key value ++ indent depth ++ ['{','\n'])
              refine ⟨st,.head ?_ walked,faults⟩
              simp [writeStep,here]
        · have later : ∃ e ∈ (bare rest).labels, ¬Filled e := by
            obtain ⟨e,member,blank⟩ := unfilled
            simp only [bare_cons,Forest.labels,List.mem_cons,List.mem_append] at member
            rcases member with rfl | inside | there
            · exact absurd ⟨key,value,rfl⟩ blank
            · exact absurd ⟨e,inside,blank⟩ deeper
            · exact ⟨e,there,blank⟩
          cases rest with
          | nil =>
              obtain ⟨e,member,-⟩ := later
              cases member
          | cons second more final =>
              have all : ∀ e ∈ (bare children).labels, Filled e := by
                intro e member
                by_contra blank
                exact deeper ⟨e,member,blank⟩
              have writes := (write_level (h := h) partsBelow all).1
              obtain ⟨st,walked,faults⟩ := ihRest partsRest after later depth (out ++ text depth (.one ⟨some key,some value⟩ (bare children)))
              exact ⟨st,(write_next here below partsBelow writes depth out).trans walked,faults⟩
      · refine ⟨_,.refl,?_⟩
        obtain ⟨key,value⟩ := e
        cases key with
        | none => simp [writeStep,here]
        | some key =>
            cases value with
            | none => simp [writeStep,here]
            | some value => exact absurd ⟨key,value,rfl⟩ filled

theorem write_blank {a : Placed Entry} (separate : Separate a) (rep : Rep h none none none a) (first : head a = some tcfg)
    (unfilled : ∃ e ∈ (bare a).labels, ¬Filled e) : ¬tconfigToFile h tcfg contents := by
  obtain ⟨st,walked,faults⟩ := write_stops separate rep unfilled 0 []
  rw [first] at walked
  intro written
  exact fault_stays (n := 1) (by simp [runFor,faults]) (walked.ends_after written)

theorem scanTo_stop (stops : Char → Bool) (s rest : Str) (goes : ∀ c ∈ s, stops c = false) (halt : stops d = true) :
    scanTo stops (s ++ d :: rest) = (s,d :: rest) := by
  induction s with
  | nil => simp [scanTo,halt]
  | cons c s ih =>
      have here : stops c = false := goes c (by simp)
      have later := ih (fun other member => goes other (by simp [member]))
      simp only [scanTo,Prod.mk.injEq] at later ⊢
      simp [here,later]

theorem scanQuoted_read (clean : ∀ c ∈ s, c ≠ '\r' ∧ c ≠ '\n' ∧ c ≠ '"') (line : Nat) (rest : Str) :
    scanQuoted line (s ++ '"' :: rest) = .ok (s,'"' :: rest) := by
  have read : scanTo (fun c => c == '\n' || c == '\r' || c == '"') (s ++ '"' :: rest) = (s,'"' :: rest) := by
    refine scanTo_stop _ s rest ?_ (by decide)
    intro c member
    obtain ⟨carriage,feed,quote⟩ := clean c member
    simp [carriage,feed,quote]
  simp [scanQuoted,read]

theorem scanPlain_read (goes : ∀ c ∈ s, stops c = false) (halt : stops d = true) (line : Nat) (rest : Str) :
    scanPlain stops line (s ++ d :: rest) = .ok (s,d :: rest) := by
  simp [scanPlain,scanTo_stop stops s rest goes halt]

-- Text that is not quoted has no blank, and does not begin with a quote.
theorem unquoted (legible : Legible s) (blankless : ¬(' ' ∈ s ∨ '\t' ∈ s)) :
    ∃ c rest, s = c :: rest ∧ c ≠ '"' ∧ c ≠ '\r' ∧ c ≠ '\n' ∧ ∀ d ∈ s, isBlank d = false := by
  cases s with
  | nil => exact absurd rfl legible.1
  | cons c rest =>
      obtain ⟨-,carriage,feed⟩ := legible.2.1 c (by simp)
      refine ⟨c,rest,rfl,?_,carriage,feed,?_⟩
      · rintro rfl
        exact (legible.2.2 (by simp)).1 rfl
      · intro d member
        have space : d ≠ ' ' := by
          rintro rfl
          exact blankless (.inl member)
        have tab : d ≠ '\t' := by
          rintro rfl
          exact blankless (.inr member)
        simp [isBlank,space,tab]

theorem Legible.clean (legible : Legible s) (blank : ' ' ∈ s ∨ '\t' ∈ s) : ∀ c ∈ s, c ≠ '\r' ∧ c ≠ '\n' ∧ c ≠ '"' := by
  intro c member
  obtain ⟨-,carriage,feed⟩ := legible.2.1 c member
  refine ⟨carriage,feed,?_⟩
  rintro rfl
  have blankless := (legible.2.2 member).2
  rcases blank with space | tab
  · exact absurd (blankless _ space) (by decide)
  · exact absurd (blankless _ tab) (by decide)

theorem readKey_quoted (plain : Plain key) (line : Nat) (rest : Str) :
    readKey line (quoted key ++ '\t' :: rest) = .ok (key,'\t' :: rest) := by
  by_cases blank : ' ' ∈ key ∨ '\t' ∈ key
  · have read := scanQuoted_read (plain.legible.clean blank) line ('\t' :: rest)
    simp only [quoted,blank,if_true,List.cons_append,List.append_assoc,List.nil_append]
    simp [readKey,read,bind,Except.bind]
  · obtain ⟨c,tail,rfl,quote,-,-,goes⟩ := unquoted plain.legible blank
    have read : scanPlain isBlank line (c :: tail ++ '\t' :: rest) = .ok (c :: tail,'\t' :: rest) :=
      scanPlain_read goes (by decide) line rest
    simp only [quoted,blank,if_false,List.cons_append] at read ⊢
    unfold readKey
    split
    · rename_i same
      exact absurd (List.cons.inj same).1 quote
    · exact read

-- The value's line end is only read over where the value is not quoted.
theorem readValue_quoted (legible : Legible value) (line : Nat) (s : Str) :
    ∃ rest, readValue line (quoted value ++ '\n' :: s) = .ok (value,rest) ∧ (rest = '\n' :: s ∨ rest = '"' :: '\n' :: s) := by
  by_cases blank : ' ' ∈ value ∨ '\t' ∈ value
  · have read := scanQuoted_read (legible.clean blank) line ('\n' :: s)
    refine ⟨'"' :: '\n' :: s,?_,.inr rfl⟩
    simp only [quoted,blank,if_true,List.cons_append,List.append_assoc,List.nil_append]
    simpa [readValue] using read
  · obtain ⟨c,tail,rfl,quote,-,-,goes⟩ := unquoted legible blank
    have read : scanPlain (fun c => isBlank c || c == '\r' || c == '\n') line (c :: tail ++ '\n' :: s) =
        .ok (c :: tail,'\n' :: s) := by
      refine scanPlain_read ?_ (by decide) line s
      intro d member
      obtain ⟨-,carriage,feed⟩ := legible.2.1 d member
      simp [goes d member,carriage,feed]
    refine ⟨'\n' :: s,?_,.inl rfl⟩
    simp only [quoted,blank,if_false,List.cons_append] at read ⊢
    unfold readValue
    split
    · rename_i same
      exact absurd (List.cons.inj same).1 quote
    · exact read

theorem quoted_head (legible : Legible s) :
    ∃ c rest, quoted s = c :: rest ∧ isBlank c = false ∧ c ≠ '\r' ∧ c ≠ '\n' ∧ (c = '"' ∨ ' ' ∉ s ∧ '\t' ∉ s ∧ s.head? = some c) := by
  by_cases blank : ' ' ∈ s ∨ '\t' ∈ s
  · exact ⟨'"',s ++ ['"'],by simp [quoted,blank],by decide,by decide,by decide,.inl rfl⟩
  · obtain ⟨c,rest,rfl,-,carriage,feed,goes⟩ := unquoted legible blank
    refine ⟨c,rest,by rw [quoted,if_neg blank],goes c (by simp),carriage,feed,.inr ?_⟩
    simpa using blank

theorem readEntry_line (plainKey : Plain key) (legible : Legible value) (blockKey : Option Str) (line : Nat) (s : Str) :
    ∃ rest, readEntry blockKey line (quoted key ++ '\t' :: (quoted value ++ '\n' :: s)) = .ok (key,value,rest) ∧
      (rest = '\n' :: s ∨ rest = '"' :: '\n' :: s) := by
  obtain ⟨rest,read,final⟩ := readValue_quoted legible line s
  refine ⟨rest,?_,final⟩
  have skipped : skipBlanks blockKey line ('\t' :: (quoted value ++ '\n' :: s)) = .ok (quoted value ++ '\n' :: s) := by
    obtain ⟨c,tail,starts,blankless,carriage,feed,-⟩ := quoted_head legible
    have blank : isBlank '\t' = true := by decide
    rw [starts]
    simp [skipBlanks,blank,blankless,carriage,feed]
  simp only [readEntry,readKey_quoted plainKey,skipped,read,bind,Except.bind]

theorem skip_spaces (n : Nat) (s : Str) :
    Reaches parseStep ⟨h,block,List.replicate n ' ' ++ s,line⟩ ⟨h,block,s,line⟩ := by
  induction n with
  | zero => exact .refl
  | succ n ih => exact .head rfl ih

-- Any other character starts an entry.
def takeEntry (h : Heap Entry) (block line : Nat) (s : Str) : Outcome ParseState Parsed :=
  match cell h block with
  | none => .fault
  | some n =>
    match readEntry n.label.key line s with
    | .error reason => .done (.exit reason)
    | .ok (found,value,rest) =>
      match insertEntry h block found value with
      | none => .fault
      | some (later,q) => goOn later q line rest

theorem step_word (plain : c ∉ ['{','}','/','\r','\n']) (blankless : isBlank c = false) (h : Heap Entry) (block line : Nat) (s : Str) :
    parseStep ⟨h,block,c :: s,line⟩ = takeEntry h block line (c :: s) := by
  have blanks : c ≠ ' ' ∧ c ≠ '\t' := by simpa [isBlank] using blankless
  simp only [List.mem_cons,List.not_mem_nil,or_false,not_or] at plain
  unfold parseStep
  simp only
  split
  · simp_all
  · simp_all
  · simp_all
  · simp_all
  · simp_all
  · simp_all
  · simp_all
  · simp_all
  · simp_all
  · simp_all
  · simp_all
  · rfl

theorem step_entry (plainKey : PlainKey key) (live : cell h block = some n) (line : Nat) (s : Str) :
    parseStep ⟨h,block,quoted key ++ s,line⟩ =
      match readEntry n.label.key line (quoted key ++ s) with
      | .error reason => .done (.exit reason)
      | .ok (found,value,rest) =>
        match insertEntry h block found value with
        | none => .fault
        | some (later,q) => goOn later q line rest := by
  obtain ⟨c,starts,same,blankless,carriage,feed,special⟩ := quoted_head plainKey.1.legible
  have plainStart : c ≠ '{' ∧ c ≠ '}' ∧ c ≠ '/' := by
    rcases special with rfl | ⟨space,tab,head⟩
    · decide
    · exact plainKey.2 space tab c (by simp [head])
  have taken := step_word (show c ∉ ['{','}','/','\r','\n'] by simp [plainStart,carriage,feed]) blankless h block line (starts ++ s)
  rw [same,List.cons_append]
  simp only [takeEntry,live] at taken
  exact taken

theorem parse_line (plainKey : PlainKey key) (legible : Legible value) (live : cell h block = some n)
    (inserted : insertEntry h block key value = some (later,q)) (depth line : Nat) (s : Str) :
    ∃ line', Reaches parseStep ⟨h,block,lineText depth key value ++ s,line⟩ ⟨later,q,s,line'⟩ := by
  obtain ⟨rest,read,final⟩ := readEntry_line plainKey.1 legible n.label.key line s
  have taken : ∀ tail, rest = tail → parseStep ⟨h,block,quoted key ++ '\t' :: (quoted value ++ '\n' :: s),line⟩ =
      goOn later q line tail := by
    rintro tail rfl
    rw [step_entry plainKey live,read]
    simp only [inserted]
  have shown : lineText depth key value ++ s =
      List.replicate (depth * 2) ' ' ++ (quoted key ++ '\t' :: (quoted value ++ '\n' :: s)) := by
    simp [lineText,indent]
  rw [shown]
  rcases final with feed | quote
  · exact ⟨line,(skip_spaces _ _).trans (.one (taken _ feed))⟩
  · exact ⟨line + 1,(skip_spaces _ _).trans (.head (taken _ quote) (.one rfl))⟩

-- The level can take these entries: it is a blank block, or it has none of them.
def Ready (a : Placed Entry) (entries : List Entry) : Prop :=
  (∃ p, a = .one (p,.blank) .nil) ∨ ∀ label ∈ a.row, label.2 ≠ .blank ∧ label.2 ∉ entries

-- Where the parser ends up after reading `b` into the level `a`.
structure Reads (h : Heap Entry) (parent : Option Nat) (a : Placed Entry) (b : Forest Entry) (later : Heap Entry)
    (new : Placed Entry) (block : Nat) : Prop extends Level later parent new block where
  replaces : Replaces h a new
  keeps : Keeps (addresses a) h later
  content : base new = (base a).append b

theorem insert_reads (level : Level h parent a block) (ready : Ready a (⟨some key,some value⟩ :: entries)) :
    ∃ (later : Heap Entry) (x : Placed Entry) (q : Nat), insertEntry h block key value = some (later,q) ∧
      Inserted h parent a ⟨some key,some value⟩ later x q ∧
      ∀ label ∈ x.row, label.2 ≠ .blank ∧ label.2 ∉ Entry.mk (some key) (some value) :: entries := by
  have back := rewind_head level.rep level.separate level.member
  have misses : ∀ label ∈ a.row, sameEntry key value label.2 = false := by
    intro label member
    rcases ready with ⟨p,rfl⟩ | filled
    · obtain rfl : label = (p,.blank) := by simpa [Forest.one,Forest.row] using member
      rfl
    · have differs : label.2 ≠ ⟨some key,some value⟩ := fun same => (filled label member).2 (by simp [same])
      obtain ⟨p,⟨k,v⟩⟩ := label
      simpa [sameEntry] using differs
  have search := walkOn_none level.rep level.separate misses none
  obtain ⟨first,headed⟩ := level.headed
  rw [headed] at back search
  rcases ready with ⟨p,rfl⟩ | filled
  · obtain ⟨here,inserted⟩ := put_blank level ⟨some key,some value⟩
    refine ⟨_,.nil,p,?_,inserted,by simp [Forest.row]⟩
    simp only [Forest.one,lastOf] at search
    simp only [insertEntry,back,search,here,Option.bind_eq_bind,Option.bind_some,if_true]
  · obtain ⟨q,n,last,here,⟨label,member,same⟩,inserted⟩ :=
      put_last level (fun label member => (filled label member).1) ⟨some key,some value⟩
    have notBlank : n.label ≠ .blank := same ▸ (filled label member).1
    rw [last] at search
    refine ⟨_,a,h.length,?_,inserted,filled⟩
    simp only [insertEntry,back,search,here,notBlank,Option.bind_eq_bind,Option.bind_some,if_false]

-- An opening brace makes a blank first child and goes to it.
theorem open_reads {x : Placed Entry} (rep : Rep h none parent none (x.append (.one (q,e) .nil)))
    (separate : Separate (x.append (.one (q,e) .nil))) (depth line : Nat) (s : Str) :
    ∃ later, Reaches parseStep ⟨h,q,indent depth ++ '{' :: '\n' :: s,line⟩ ⟨later,h.length,s,line + 1⟩ ∧
      Rep later none parent none (x.append (.one (q,e) (.one (h.length,.blank) .nil))) ∧
      Replaces h (x.append (.one (q,e) .nil)) (x.append (.one (q,e) (.one (h.length,.blank) .nil))) ∧
      Keeps (addresses (x.append (.one (q,e) .nil))) h later ∧
      Level later (some q) (.one (h.length,.blank) .nil) h.length := by
  obtain ⟨here,-⟩ := rep_node rep
  have taken : parseStep ⟨h,q,'{' :: '\n' :: s,line⟩ = .next ⟨store (alloc h ⟨.blank,none,none,some q,none⟩) q
      ⟨e,lastOf none x,none,owner parent x,some h.length⟩,h.length,'\n' :: s,line⟩ := by
    simp [parseStep,openBrace,here,goOn]
  exact ⟨_,(skip_spaces _ _).trans (.head taken (.one rfl)),child_opens rep separate here rfl⟩

theorem close_reads (level : Level h (some q) a block) (depth line : Nat) (s : Str) :
    Reaches parseStep ⟨h,block,indent depth ++ '}' :: '\n' :: '\n' :: s,line⟩ ⟨h,q,s,line + 1 + 1⟩ := by
  have back := rewind_head level.rep level.separate level.member
  cases a with
  | nil => cases level.member
  | cons label children rest =>
      obtain ⟨p,e⟩ := label
      have here := level.rep.1
      have taken : parseStep ⟨h,block,'}' :: '\n' :: '\n' :: s,line⟩ = .next ⟨h,q,'\n' :: '\n' :: s,line⟩ := by
        simp [parseStep,closeBrace,back,here,goOn]
      exact (skip_spaces _ _).trans (.head taken (.head rfl (.one rfl)))

-- A level is finished when every block of it is.
theorem Reads.trans {middle later : Heap Entry} {a between new : Placed Entry}
    (first : Reads h parent a b middle between p) (second : Reads middle parent between c later new q) :
    Reads h parent a (b.append c) later new q := by
  refine ⟨second.toLevel,first.replaces.trans second.replaces first.keeps.grows,?_,?_⟩
  · exact first.keeps.trans second.keeps first.replaces.fresh
  · rw [second.content,first.content,Forest.append_assoc]

-- A block with children: `body` is their text, which the parser reads into the new level.
theorem block_reads {x : Placed Entry} (goes : Inserted h parent a e filled x q)
    (others : ∀ label ∈ x.row, label.2 ≠ Entry.blank) (written : e ≠ .blank) (some' : children ≠ .nil) (body : Str)
    (parses : ∀ (opened : Heap Entry) (line : Nat) (s : Str), Level opened (some q) (.one (filled.length,.blank) .nil) filled.length →
      ∃ (later : Heap Entry) (new : Placed Entry) (block' line' : Nat),
        Reaches parseStep ⟨opened,filled.length,body ++ s,line⟩ ⟨later,block',s,line'⟩ ∧
          Reads opened (some q) (.one (filled.length,.blank) .nil) children later new block')
    (depth line : Nat) (s : Str) :
    ∃ (later : Heap Entry) (new : Placed Entry) (line' : Nat),
      Reaches parseStep ⟨filled,q,indent depth ++ '{' :: '\n' :: (body ++ (indent depth ++ '}' :: '\n' :: '\n' :: s)),line⟩
        ⟨later,q,s,line'⟩ ∧ Reads h parent a (.one e children) later (x.append (.one (q,e) new)) q := by
  obtain ⟨opened,enter,rep,replaces,keeps,fresh⟩ := open_reads goes.rep goes.separate depth line
    (body ++ (indent depth ++ '}' :: '\n' :: '\n' :: s))
  obtain ⟨later,inside,last,line',read,below⟩ := parses opened (line + 1) (indent depth ++ '}' :: '\n' :: '\n' :: s) fresh
  have leave := close_reads below.toLevel depth line' s
  have content : bare inside = children := by
    refine base_some ?_ some'
    rw [below.content,base_blank]
    rfl
  have closes := replaces_children (y := .nil) rep replaces.separate below.replaces.separate below.replaces.fresh e
  have whole : Replaces opened (x.append (.one (q,e) (.one (filled.length,.blank) .nil))) (x.append (.one (q,e) inside)) := closes
  refine ⟨later,inside,_,enter.trans (read.trans leave),⟨⟨?_,whole.separate,?_⟩,?_,?_,?_⟩⟩
  · exact rep_children (y := .nil) rep replaces.separate below.keeps below.rep below.replaces
  · simp [siblings,Forest.one,Forest.row]
  · exact (goes.replaces.trans replaces goes.keeps.grows).trans whole (Nat.le_trans goes.keeps.grows keeps.grows)
  · have two := goes.keeps.trans keeps goes.replaces.fresh
    refine two.trans below.keeps ?_
    intro p member
    have inside' : p ∈ addresses (x.append (.one (q,e) (.one (filled.length,.blank) .nil))) := by
      simp only [addresses_append,Forest.one,addresses_cons,addresses_nil,List.append_nil] at member ⊢
      simp [member]
    exact (goes.replaces.trans replaces goes.keeps.grows).fresh p inside'
  · rw [base_last others written,goes.before,content]

-- The parser reads the text of a forest into its level.
theorem parse_level {b : Forest Entry} (carried : Carried b) (level : Level h parent a block) (ready : Ready a b.row)
    (depth line : Nat) (s : Str) :
    ∃ (later : Heap Entry) (new : Placed Entry) (block' line' : Nat),
      Reaches parseStep ⟨h,block,text depth b ++ s,line⟩ ⟨later,block',s,line'⟩ ∧ Reads h parent a b later new block' := by
  induction b generalizing h parent a block depth line s with
  | nil =>
      refine ⟨h,a,block,line,.refl,level,.refl h level.separate,.refl _ h,?_⟩
      exact (Forest.append_nil _).symm
  | cons e children rest ihChildren ihRest =>
      obtain ⟨⟨key,value,rfl,plainKey,legible⟩,new,carriedChildren,carriedRest⟩ := carried
      have written : Entry.mk (some key) (some value) ≠ .blank := by simp [Entry.blank]
      obtain ⟨n,live⟩ : ∃ n, cell h block = some n := by
        obtain ⟨x,label,below,y,rfl⟩ := siblings_split level.member
        exact ⟨_,(rep_node level.rep).1⟩
      obtain ⟨filled,x,q,inserted,goes,others⟩ := insert_reads level ready
      have othersFilled : ∀ label ∈ x.row, label.2 ≠ .blank := fun label member => (others label member).1
      have readyAfter : ∀ below, Ready (x.append (.one (q,⟨some key,some value⟩) below)) rest.row := by
        intro below
        refine .inr ?_
        intro label member
        rw [Forest.row_append,List.mem_append] at member
        rcases member with old | here
        · have apart := others label old
          exact ⟨apart.1,fun bad => apart.2 (by simp [bad])⟩
        · obtain rfl : label = (q,⟨some key,some value⟩) := by simpa [Forest.one,Forest.row] using here
          exact ⟨written,new⟩
      cases children with
      | nil =>
          obtain ⟨line',read⟩ := parse_line plainKey legible live inserted depth line (text depth rest ++ s)
          have first : Reads h parent a (.one ⟨some key,some value⟩ .nil) filled
              (x.append (.one (q,⟨some key,some value⟩) .nil)) q := by
            refine ⟨goes.toLevel,goes.replaces,goes.keeps,?_⟩
            rw [base_last othersFilled written,goes.before]
            rfl
          obtain ⟨later,final,block',line'',more,whole⟩ := ihRest carriedRest first.toLevel (readyAfter .nil) depth line' s
          refine ⟨later,final,block',line'',?_,first.trans whole⟩
          refine Reaches.trans ?_ more
          simpa [text,entryText] using read
      | cons inner below after =>
          have shown : text depth (.cons ⟨some key,some value⟩ (.cons inner below after) rest) ++ s =
              '\n' :: (lineText depth key value ++ (indent depth ++ '{' :: '\n' ::
                (text (depth + 1) (.cons inner below after) ++ (indent depth ++ '}' :: '\n' :: '\n' ::
                  (text depth rest ++ s))))) := by
            simp [text,entryText]
          rw [shown]
          obtain ⟨line1,read⟩ := parse_line plainKey legible live inserted depth (line + 1) (indent depth ++ '{' :: '\n' ::
            (text (depth + 1) (.cons inner below after) ++ (indent depth ++ '}' :: '\n' :: '\n' :: (text depth rest ++ s))))
          obtain ⟨closed,inside,line2,readBlock,first⟩ := block_reads goes othersFilled written (by simp)
            (text (depth + 1) (.cons inner below after))
            (fun opened line s fresh => ihChildren carriedChildren fresh (.inl ⟨_,rfl⟩) (depth + 1) line s)
            depth line1 (text depth rest ++ s)
          obtain ⟨later,final,block',line3,more,whole⟩ := ihRest carriedRest first.toLevel (readyAfter inside) depth line2 s
          refine ⟨later,final,block',line3,?_,first.trans whole⟩
          exact .head rfl (read.trans (readBlock.trans more))

theorem quoted_clean (legible : Legible s) : nul ∉ quoted s := by
  have clean : nul ∉ s := fun member => (legible.2.1 nul member).1 rfl
  have quote : nul ≠ '"' := by decide
  unfold quoted
  split
  · simp [clean,quote]
  · exact clean

theorem text_clean {b : Forest Entry} (carried : Carried b) (depth : Nat) : ∀ c ∈ text depth b, c ≠ nul := by
  suffices clean : nul ∉ text depth b by
    rintro c member rfl
    exact clean member
  induction b generalizing depth with
  | nil => simp [text]
  | cons e children rest ihChildren ihRest =>
      obtain ⟨⟨key,value,rfl,plainKey,legible⟩,-,carriedChildren,carriedRest⟩ := carried
      have line : nul ∉ entryText depth ⟨some key,some value⟩ := by
        have space : nul ≠ ' ' := by decide
        have ends : nul ≠ '\t' ∧ nul ≠ '\n' := by decide
        simp [entryText,lineText,indent,quoted_clean plainKey.1.legible,quoted_clean legible,space,ends]
      have braces : nul ≠ ' ' ∧ nul ≠ '\n' ∧ nul ≠ '{' ∧ nul ≠ '}' := by decide
      cases children with
      | nil => simp [text,line,ihRest carriedRest]
      | cons inner below after =>
          have deeper := ihChildren carriedChildren (depth + 1)
          simp [text,line,deeper,ihRest carriedRest,indent,braces]

theorem start_level (other : Heap Entry) : Level (tconfigBlockNew other) none (.one (other.length,.blank) .nil) other.length := by
  refine ⟨⟨?_,trivial,trivial⟩,by simp [Separate,Forest.one],by simp [siblings,Forest.one,Forest.row]⟩
  exact cell_alloc other _

-- Reading a written file gives the forest it was written from, in new blocks.
theorem read_all {f : Forest Entry} (carried : Carried f) (some' : f ≠ .nil) (other : Heap Entry) :
    ∃ (later : Heap Entry) (b : Placed Entry), fileToTconfig other (text 0 f) (.tree later) ∧ Rep later none none none b ∧
      Separate b ∧ head b = some other.length ∧ bare b = f := by
  obtain ⟨later,b,block,line,read,reads⟩ := parse_level carried (start_level other) (.inl ⟨_,rfl⟩) 0 1 []
  have content : bare b = f := by
    refine base_some ?_ some'
    rw [reads.content,base_blank]
    rfl
  refine ⟨later,b,?_,reads.rep,reads.separate,reads.replaces.head,content⟩
  have whole : (text 0 f).takeWhile (fun c => c != nul) = text 0 f := by
    refine List.takeWhile_eq_self_iff.mpr ?_
    intro c member
    simpa using text_clean carried 0 c member
  rw [List.append_nil] at read
  unfold fileToTconfig parseStart
  rw [whole]
  exact read.ends (ends_now rfl)

-- Writing a forest and reading the file back gives the same forest, in new blocks.
theorem config_round_trip (rep : Rep h none none none a) (separate : Separate a) (some' : a ≠ .nil)
    (normal : NormalForm (bare a)) (other : Heap Entry) :
    ∃ (tcfg : Nat) (contents : Str) (later : Heap Entry) (b : Placed Entry), head a = some tcfg ∧
      tconfigToFile h tcfg contents ∧ fileToTconfig other contents (.tree later) ∧ Rep later none none none b ∧
      Separate b ∧ head b = some other.length ∧ bare b = bare a := by
  obtain ⟨tcfg,first⟩ := head_some some'
  have someBare : bare a ≠ .nil := by
    cases a with
    | nil => exact absurd rfl some'
    | cons label children rest => simp [bare,Forest.map]
  obtain ⟨later,b,read,repLater,separateLater,headed,content⟩ := read_all normal.carried someBare other
  exact ⟨tcfg,text 0 (bare a),later,b,first,write_all rep separate normal.carried.filled first,read,repLater,separateLater,headed,content⟩

-- Two top blocks, the first with a quoted key and a child.
def sampleHeap : Heap Entry :=
  [some ⟨⟨some "main opts".toList,some "*".toList⟩,none,some 2,none,some 1⟩,
    some ⟨⟨some "nick".toList,some "troll bot".toList⟩,none,none,some 0,none⟩,
    some ⟨⟨some "main opts".toList,some "off".toList⟩,some 0,none,none,none⟩]

def sample : Placed Entry :=
  .cons (0,⟨some "main opts".toList,some "*".toList⟩) (.one (1,⟨some "nick".toList,some "troll bot".toList⟩) .nil)
    (.one (2,⟨some "main opts".toList,some "off".toList⟩) .nil)

theorem sample_round_trip :
    ∃ (tcfg : Nat) (contents : Str) (later : Heap Entry) (b : Placed Entry), head sample = some tcfg ∧
      tconfigToFile sampleHeap tcfg contents ∧ fileToTconfig [] contents (.tree later) ∧ Rep later none none none b ∧
      Separate b ∧ head b = some 0 ∧ bare b = bare sample := by
  have plain : Plain "main opts".toList ∧ Plain "nick".toList ∧ Plain "troll bot".toList ∧ Plain "*".toList ∧ Plain "off".toList := by
    unfold Plain
    decide
  obtain ⟨opts,nick,bot,star,off⟩ := plain
  have optsKey : PlainKey "main opts".toList := ⟨opts,fun spaceless => absurd (by decide) spaceless⟩
  have nickKey : PlainKey "nick".toList := ⟨nick,by decide⟩
  refine config_round_trip (h := sampleHeap) (a := sample) ⟨rfl,⟨rfl,trivial,trivial⟩,rfl,trivial,trivial⟩ (by unfold Separate; decide) (by simp [sample]) ?_ []
  exact ⟨⟨_,_,rfl,optsKey,star⟩,by decide,⟨⟨_,_,rfl,nickKey,bot⟩,by decide,trivial,trivial⟩,
    ⟨_,_,rfl,optsKey,off⟩,by decide,trivial,trivial⟩

end Trollbot.Tconfig

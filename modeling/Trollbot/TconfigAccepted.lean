import Mathlib.Combinatorics.Enumerative.DyckWord
import Trollbot.TconfigComments

-- The trees that file_to_tconfig returns: how they are linked, and when they are complete.
namespace Trollbot.Tconfig
open CBuffer Linked Machine

-- The links below the first block. Two siblings never have the same key and value.
structure WellLinked (h : Heap Entry) (head : Nat) : Prop where
  live : ∀ p, Linked.Within h head p → ∃ n, cell h p = some n
  top : ∀ n, cell h head = some n → n.prev = none ∧ n.parent = none
  next : ∀ p n q, Linked.Within h head p → cell h p = some n → n.next = some q →
    ∃ m, cell h q = some m ∧ m.prev = some p ∧ m.parent = none
  child : ∀ p n q, Linked.Within h head p → cell h p = some n → n.child = some q →
    ∃ m, cell h q = some m ∧ m.prev = none ∧ m.parent = some p
  parent : ∀ q m p, Linked.Within h head q → cell h q = some m → m.parent = some p →
    Linked.Within h head p ∧ ∃ n, cell h p = some n ∧ n.child = some q
  apart : ∀ p n q m, Linked.Within h head p → Onward h p q → cell h p = some n → cell h q = some m → n.label ≠ m.label

theorem placed_cell {levels : Levels Entry} {h : Heap Entry} (laid : Laid h levels) (here : placeAt levels path i = some p) :
    ∃ label, (levels path)[i]? = some (p,label) ∧ cell h p = some (nodeAt (placeAt levels) path i label) := by
  obtain ⟨label,inRow⟩ := placeAt_some.mp here
  exact ⟨label,inRow,laid.cells _ _ _ _ inRow⟩

theorem level_apart {levels : Levels Entry} {rows : List Nat → Option (List Entry)} {i j : Nat} {e e' : Entry} (shows : (levels path).map Prod.snd = shown (rows path)) (once : ∀ row, rows path = some row → row.Nodup)
    (first : (levels path)[i]? = some (p,e)) (second : (levels path)[j]? = some (q,e')) (before : i < j) : e ≠ e' := by
  rintro rfl
  have first' := row_get shows first
  have second' := row_get shows second
  have nodup : (shown (rows path)).Nodup := by
    cases known : rows path with
    | none => exact List.nodup_nil
    | some row =>
        cases row with
        | nil => simp [shown]
        | cons e rest => exact once _ known
  obtain ⟨boundI,sameI⟩ := List.getElem?_eq_some_iff.mp first'
  obtain ⟨boundJ,sameJ⟩ := List.getElem?_eq_some_iff.mp second'
  have same := (List.Nodup.getElem_inj_iff nodup).mp (sameI.trans sameJ.symm)
  omega

theorem parsed_linked (parsed : fileToTconfig h contents (.tree later)) : WellLinked later h.length := by
  obtain ⟨o,levels,block,-,pictured,tidy⟩ := parsed_pictured parsed
  have laid := pictured.laid
  refine ⟨?_,?_,?_,?_,?_,?_⟩
  · intro p within
    obtain ⟨path,i,here⟩ := within_placed laid pictured.top within
    obtain ⟨label,-,live⟩ := placed_cell laid here
    exact ⟨_,live⟩
  · intro n live
    rw [(laid_cell laid pictured.top live).2]
    exact ⟨rfl,rfl⟩
  · intro p n q within live next
    obtain ⟨path,i,here⟩ := within_placed laid pictured.top within
    rw [(laid_cell laid here live).2] at next
    obtain ⟨label,-,after⟩ := placed_cell laid next
    exact ⟨_,after,here,rfl⟩
  · intro p n q within live child
    obtain ⟨path,i,here⟩ := within_placed laid pictured.top within
    rw [(laid_cell laid here live).2] at child
    obtain ⟨label,-,below⟩ := placed_cell laid child
    exact ⟨_,below,rfl,here⟩
  · intro q m p within live parent
    obtain ⟨path,i,here⟩ := within_placed laid pictured.top within
    rw [(laid_cell laid here live).2] at parent
    cases i with
    | succ i => cases parent
    | zero =>
        cases path with
        | nil => cases parent
        | cons j above =>
            have owner : placeAt levels above j = some p := parent
            obtain ⟨label,-,owns⟩ := placed_cell laid owner
            exact ⟨placed_within laid pictured.top owner,_,owns,here⟩
  · intro p n q m within onward liveP liveQ
    obtain ⟨path,i,here⟩ := within_placed laid pictured.top within
    obtain ⟨j,before,there⟩ := onward_placed laid here onward
    exact level_apart (pictured.shows path) (tidy.once path) (laid_cell laid here liveP).1 (laid_cell laid there liveQ).1 before

-- A block with an entry, under an entry.
theorem nested_parsed : fileToTconfig [] ['a',' ','b',' ','{','c',' ','d',' ','}']
    (.tree [some ⟨⟨some ['a'],some ['b']⟩,none,none,none,some 1⟩,some ⟨⟨some ['c'],some ['d']⟩,none,none,some 0,none⟩]) :=
  ends_later rfl (ends_later rfl (ends_later rfl (ends_later rfl (ends_now rfl))))

theorem nested_linked : ∃ later, fileToTconfig [] ['a',' ','b',' ','{','c',' ','d',' ','}'] (.tree later) ∧ WellLinked later 0 :=
  ⟨_,nested_parsed,parsed_linked nested_parsed⟩

-- The braces of a file, outside quotes and comments. A brace inside a bare word is part of the word;
-- `inWords` counts it as well.
def brace : Char → Option DyckStep
  | '{' => some .U
  | '}' => some .D
  | _ => none

-- Where a reader of the text is. A '//' comment ends where its line ends, whichever way.
inductive Reading where
  | between
  | slash
  | block
  | star
  | line
  | key
  | quotedKey
  | gap
  | value
  | quotedValue
deriving DecidableEq

@[simp] def braces (inWords : Bool) : Reading → Str → List DyckStep
  | _,[] => []
  | .between,c :: s =>
    match brace c with
    | some step => step :: braces inWords .between s
    | none =>
      if c = '/' then braces inWords .slash s
      else if c = '"' then braces inWords .quotedKey s
      else if isSpace c then braces inWords .between s
      else braces inWords .key s
  | .slash,c :: s => braces inWords (if c = '*' then .block else if c = '/' then .line else .between) s
  | .block,c :: s => braces inWords (if c = '*' then .star else .block) s
  | .star,c :: s => braces inWords (if c = '/' then .between else if c = '*' then .star else .block) s
  | .line,c :: s => braces inWords (if c = '\r' ∨ c = '\n' then .between else .line) s
  | .key,c :: s =>
    if isBlank c then braces inWords .gap s
    else (if inWords then (brace c).toList else []) ++ braces inWords .key s
  | .quotedKey,c :: s => braces inWords (if c = '"' then .gap else .quotedKey) s
  | .gap,c :: s =>
    if isSpace c then braces inWords .gap s
    else if c = '"' then braces inWords .quotedValue s
    else (if inWords then (brace c).toList else []) ++ braces inWords .value s
  | .value,c :: s =>
    if isSpace c then braces inWords .between s
    else (if inWords then (brace c).toList else []) ++ braces inWords .value s
  | .quotedValue,c :: s => braces inWords (if c = '"' then .between else .quotedValue) s

-- The brace behind a comment that a lone carriage return ends is outside of it.
example : braces false .between ['/','/','c','\r','{'] = [.U] := rfl

-- A carriage return with other text than a line feed behind it.
def loneReturn : Str → Bool
  | '\r' :: d :: s => d != '\n' || loneReturn (d :: s)
  | _ :: s => loneReturn s
  | [] => false

def Token.braces : Token → List DyckStep
  | .opened => [.U]
  | .closed => [.D]
  | .entry _ _ => []

-- The nesting depth along the braces; none where one closes nothing.
def depthStep (depth : Nat) : DyckStep → Option Nat
  | .U => some (depth + 1)
  | .D =>
    match depth with
    | 0 => none
    | outer+1 => some outer

theorem depth_counts (steps : List DyckStep) (depth last : Nat) : steps.foldlM depthStep depth = some last ↔
    (∀ i, (steps.take i).count .D ≤ depth + (steps.take i).count .U) ∧ depth + steps.count .U = last + steps.count .D := by
  induction steps generalizing depth with
  | nil => simp
  | cons step rest ih =>
      cases step with
      | U =>
          simp only [List.foldlM_cons,depthStep,Option.bind_eq_bind,Option.bind_some,ih (depth + 1)]
          constructor
          · rintro ⟨fronts,whole⟩
            refine ⟨?_,by simp; omega⟩
            intro i
            cases i with
            | zero => simp
            | succ i =>
                have front := fronts i
                simp
                omega
          · rintro ⟨fronts,whole⟩
            refine ⟨?_,by simp at whole; omega⟩
            intro i
            have front := fronts (i + 1)
            simp at front
            omega
      | D =>
          cases depth with
          | zero =>
              simp only [List.foldlM_cons,depthStep,Option.bind_eq_bind,Option.bind_none]
              constructor
              · exact nofun
              · rintro ⟨fronts,-⟩
                have first := fronts 1
                simp at first
          | succ outer =>
              simp only [List.foldlM_cons,depthStep,Option.bind_eq_bind,Option.bind_some,ih outer]
              constructor
              · rintro ⟨fronts,whole⟩
                refine ⟨?_,by simp; omega⟩
                intro i
                cases i with
                | zero => simp
                | succ i =>
                    have front := fronts i
                    simp
                    omega
              · rintro ⟨fronts,whole⟩
                refine ⟨?_,by simp at whole; omega⟩
                intro i
                have front := fronts (i + 1)
                simp at front
                omega

theorem balanced_depth (steps : List DyckStep) : (∃ word : DyckWord, word.toList = steps) ↔ steps.foldlM depthStep 0 = some 0 := by
  rw [depth_counts]
  constructor
  · rintro ⟨word,rfl⟩
    exact ⟨fun i => by simpa using word.count_D_le_count_U i,by simpa using word.count_U_eq_count_D⟩
  · rintro ⟨fronts,whole⟩
    exact ⟨⟨steps,by simpa using whole,fun i => by simpa using fronts i⟩,rfl⟩

-- The depth is the number of blocks around the place in the outline.
theorem read_depth {o o' : Outline} (read : o.read token = some o') :
    token.braces.foldlM depthStep o.path.length = some o'.path.length := by
  cases token with
  | opened =>
      simp only [Outline.read] at read
      split at read
      · cases read
        rfl
      · cases read
        rfl
  | closed =>
      simp only [Outline.read] at read
      split at read
      · cases read
      · rename_i i above path
        cases read
        simp [Token.braces,path,depthStep]
  | entry key value =>
      simp only [Outline.read] at read
      split at read
      · cases read
        rfl
      · cases read
        rfl

theorem outline_depth {all : List Token} {o o' : Outline} (reads : all.foldlM Outline.read o = some o') :
    (all.flatMap Token.braces).foldlM depthStep o.path.length = some o'.path.length := by
  induction all generalizing o with
  | nil =>
      cases reads
      rfl
  | cons token rest ih =>
      rw [List.foldlM_cons] at reads
      obtain ⟨middle,first,reads⟩ := Option.bind_eq_some_iff.mp reads
      rw [List.flatMap_cons,List.foldlM_append,read_depth first]
      exact ih reads

-- What a reader of the tree relies on.
structure Complete (inWords : Bool) (contents : Str) (h : Heap Entry) (head : Nat) : Prop where
  balanced : ∃ word : DyckWord, word.toList = braces inWords .between (heard contents)
  filled : ∀ p, Linked.Within h head p → ∃ n key value, cell h p = some n ∧ n.label = ⟨some key,some value⟩
  oneLine : ∀ p n, Linked.Within h head p → cell h p = some n →
    (∀ key, n.label.key = some key → OneLine key) ∧ (∀ value, n.label.value = some value → OneLine value)

def DepthReturns (inWords : Bool) (contents : Str) : Prop := (braces inWords .between (heard contents)).foldlM depthStep 0 = some 0

-- No block is open at the end of the file. Where a '//' comment may have taken a brace with it, and with the
-- braces inside words counted, the depth comes back to zero.
def EndsOutside (contents : Str) (o : Outline) : Bool → Prop
  | false => if loneReturn (heard contents) then DepthReturns false contents else o.path = []
  | true => DepthReturns true contents

-- The file ends outside every block, the file and every block in it have an entry of their own, and a key
-- without quotes has its blank on the same line.
structure WholeFile (inWords : Bool) (contents : Str) : Prop where
  written : ∃ o, outline (tokens contents) = some o ∧ EndsOutside contents o inWords ∧ ∀ path, o.rows path ≠ some []
  keys : ∀ key value, .entry key value ∈ tokens contents → key.bare = true → OneLine key.text

-- A text item by item, with its tokens.
inductive Spells : Str → List Token → Prop where
  | stop : Stops s → Spells s []
  | item : Item token used rest → Spells rest later → Spells (used ++ rest) (token.toList ++ later)

theorem gives_spells (gives : Gives at' s tree) : ∃ all, Spells s all := by
  induction gives with
  | stop stops => exact ⟨[],.stop stops⟩
  | item item _ _ ih =>
      obtain ⟨later,spells⟩ := ih
      exact ⟨_,.item item spells⟩

theorem entry_lexed (one' : KeyPart key one) (two' : ValuePart value two) (s : Str) :
    ∃ d, lexEntry (one ++ two ++ s) = some (.entry key value,d :: s) := by
  obtain ⟨gap,readK,blanks⟩ := keyPart_read one' 0 (two ++ s)
  obtain ⟨c,tail,d,starts,spaceless,readV⟩ := valuePart_read two' 0 s
  have skipped : skipBlanks none 0 (gap ++ (two ++ s)) = .ok (two ++ s) := by
    rw [skipBlanks_over blanks,starts,skipBlanks_stops spaceless]
  have bareKey : startsBare (one ++ (two ++ s)) = key.bare := by
    cases one' with
    | quoted _ _ => rfl
    | bare plain _ _ _ =>
        simp only [List.mem_cons,not_or] at plain
        simp [startsBare,plain]
  have bareValue : startsBare (two ++ s) = value.bare := by
    cases two' with
    | quoted _ => rfl
    | bare plain _ _ => simp [startsBare,plain]
  refine ⟨d,?_⟩
  rw [List.append_assoc]
  simp only [lexEntry,readK,skipped,readV,bareKey,bareValue]

theorem item_lexed (item : Item token used rest) : lexOne (used ++ rest) = some (token,rest) ∨
    ∃ note, OneLine note ∧ token = none ∧ used = '/' :: '/' :: (note ++ ['\r','\n']) ∧ lexOne (used ++ rest) = some (none,'\n' :: rest) := by
  cases item with
  | opened => exact .inl rfl
  | closed => exact .inl rfl
  | space blank =>
      simp only [List.mem_cons,List.not_mem_nil,or_false] at blank
      rcases blank with rfl | rfl | rfl <;> exact .inl rfl
  | carriage apart =>
      refine .inl ?_
      cases rest with
      | nil => rfl
      | cons d rest =>
          have feed : d ≠ '\n' := fun same => apart (by rw [same]; rfl)
          rw [List.singleton_append,lexOne.eq_def]
          split <;> simp_all
  | carriageFeed => exact .inl rfl
  | block closeless =>
      obtain ⟨line',read⟩ := blockComment_closes closeless 0 rest
      refine .inl ?_
      simp only [List.cons_append,List.append_assoc,List.nil_append,lexOne,read,List.tail_cons]
  | line oneLine =>
      refine .inl ?_
      simp only [List.cons_append,List.append_assoc,List.nil_append,lexOne,lineComment_over oneLine]
      rfl
  | lineFeed oneLine =>
      refine .inr ⟨_,oneLine,rfl,rfl,?_⟩
      simp only [List.cons_append,List.append_assoc,List.nil_append,lexOne,lineComment_over oneLine]
      rfl
  | lineCarriage oneLine apart =>
      refine .inl ?_
      simp only [List.cons_append,List.append_assoc,List.nil_append,lexOne,lineComment_over oneLine]
      simp [lineComment,apart]
  | entry one two =>
      obtain ⟨d,lexed⟩ := entry_lexed one two rest
      obtain ⟨c,tail,rfl,plain,blankless⟩ := keyPart_first one
      simp only [List.mem_cons,List.not_mem_nil,or_false,not_or] at plain
      have blank : c ≠ ' ' ∧ c ≠ '\t' := by simpa [isBlank] using blankless
      refine .inl ?_
      rw [lexOne_entry,lexed]
      · rfl
      all_goals simp [plain,blank]

theorem stops_lexed (stops : Stops s) : lexOne s = none := by
  rcases stops with rfl | ⟨note,oneLine,rfl | rfl⟩
  · rfl
  · have over' := lineComment_over oneLine [] 0
    rw [List.append_nil] at over'
    simp only [lexOne,over']
    rfl
  · simp only [lexOne,lineComment_over oneLine]
    rfl

theorem spells_lexed (spells : Spells s all) (enough : s.length ≤ fuel) : lex fuel s = all := by
  induction spells generalizing fuel with
  | stop stops => exact lex_over (stops_lexed stops) fuel
  | @item token used rest later item _ ih =>
      have positive := List.length_pos_iff.mpr (item_some item)
      rcases item_lexed item with lexed | ⟨note,-,rfl,rfl,lexed⟩
      · obtain ⟨fuel',enough',same⟩ := lex_step lexed (by simp only [List.length_append]; omega) enough
        rw [same,ih enough']
      · obtain ⟨fuel',enough',same⟩ := lex_step lexed (by simp only [List.length_append,List.length_cons,List.length_nil]; omega) enough
        have feed : lexOne ('\n' :: rest) = some (none,rest) := rfl
        obtain ⟨fuel'',enough'',same'⟩ := lex_step feed (by simp) enough'
        rw [same,same',ih enough'']
        rfl

-- What a reader of the text makes of an item, with words passed over.
section
variable (s : Str)

theorem line_over {note : Str} (oneLine : OneLine note) : braces false .line (note ++ s) = braces false .line s := by
  induction note with
  | nil => rfl
  | cons c note ih =>
      obtain ⟨carriage,feed⟩ := oneLine c (by simp)
      rw [List.cons_append,braces,if_neg (by simp [carriage,feed])]
      exact ih (fun d member => oneLine d (by simp [member]))

theorem between_space (space : isSpace c = true) : braces false .between (c :: s) = braces false .between s := by
  have kinds : c = ' ' ∨ c = '\t' ∨ c = '\r' ∨ c = '\n' := by simpa [isSpace,isBlank,or_assoc] using space
  rcases kinds with rfl | rfl | rfl | rfl <;> rfl

theorem block_over {note : Str} (closeless : Closeless note) : braces false .block (note ++ '*' :: '/' :: s) = braces false .between s ∧
    (note.head? ≠ some '/' → braces false .star (note ++ '*' :: '/' :: s) = braces false .between s) := by
  induction note with
  | nil => exact ⟨rfl,fun _ => rfl⟩
  | cons c note ih =>
      obtain ⟨block,star⟩ := ih (closeless_rest [c] closeless)
      by_cases starred : c = '*'
      · subst starred
        have apart : note.head? ≠ some '/' := by
          intro first
          obtain ⟨tail,rfl⟩ := List.head?_eq_some_iff.mp first
          exact closeless (List.prefix_append ['*','/'] tail).isInfix
        exact ⟨star apart,fun _ => star apart⟩
      · refine ⟨?_,fun first => ?_⟩
        · rw [List.cons_append,braces,if_neg starred]
          exact block
        · have slash : c ≠ '/' := fun same => first (by rw [same]; rfl)
          rw [List.cons_append,braces,if_neg slash,if_neg starred]
          exact block

theorem gap_over {gap : Str} (blanks : ∀ c ∈ gap, isBlank c = true) : braces false .gap (gap ++ s) = braces false .gap s := by
  induction gap with
  | nil => rfl
  | cons c gap ih =>
      have space : isSpace c = true := by simp [isSpace,blanks c (by simp)]
      rw [List.cons_append,braces,if_pos space]
      exact ih (fun d member => blanks d (by simp [member]))

theorem key_over {key gap : Str} (goes : ∀ c ∈ key, isBlank c = false) (blanks : ∀ c ∈ gap, isBlank c = true) (some' : gap ≠ []) :
    braces false .key (key ++ gap ++ s) = braces false .gap s := by
  induction key with
  | nil =>
      cases gap with
      | nil => exact absurd rfl some'
      | cons c gap =>
          rw [List.nil_append,List.cons_append,braces,if_pos (blanks c (by simp))]
          exact gap_over s (fun d member => blanks d (by simp [member]))
  | cons c key ih =>
      rw [List.cons_append,List.cons_append,braces,if_neg (by simp [goes c (by simp)])]
      simpa using ih (fun d member => goes d (by simp [member]))

theorem quotedKey_over {key : Str} (clean : ∀ c ∈ key, c ≠ '"') : braces false .quotedKey (key ++ '"' :: s) = braces false .gap s := by
  induction key with
  | nil => rfl
  | cons c key ih =>
      rw [List.cons_append,braces,if_neg (clean c (by simp))]
      exact ih (fun d member => clean d (by simp [member]))

theorem quotedValue_over {value : Str} (clean : ∀ c ∈ value, c ≠ '"') :
    braces false .quotedValue (value ++ '"' :: s) = braces false .between s := by
  induction value with
  | nil => rfl
  | cons c value ih =>
      rw [List.cons_append,braces,if_neg (clean c (by simp))]
      exact ih (fun d member => clean d (by simp [member]))

theorem value_over {value : Str} (goes : ∀ c ∈ value, isSpace c = false) (halts : isSpace d = true) :
    braces false .value (value ++ d :: s) = braces false .between s := by
  induction value with
  | nil => rw [List.nil_append,braces,if_pos halts]
  | cons c value ih =>
      rw [List.cons_append,braces,if_neg (by simp [goes c (by simp)])]
      simpa using ih (fun d member => goes d (by simp [member]))

theorem between_key (part : KeyPart key one) : braces false .between (one ++ s) = braces false .gap s := by
  cases part with
  | quoted clean blanks =>
      simp only [List.cons_append,List.append_assoc]
      exact (quotedKey_over _ (fun c member => (clean c member).2.2)).trans (gap_over s blanks)
  | @bare c key gap plain goes blanks some' =>
      simp only [List.mem_cons,List.not_mem_nil,or_false,not_or] at plain
      obtain ⟨opens,closes,slash,quote,carriage,feed⟩ := plain
      have bracket : brace c = none := by
        unfold brace
        split
        · exact absurd rfl opens
        · exact absurd rfl closes
        · rfl
      have word : isSpace c = false := by simp [isSpace,goes c (by simp),carriage,feed]
      rw [List.cons_append,List.cons_append,braces]
      simp only [bracket,if_neg slash,if_neg quote,word,Bool.false_eq_true,if_false]
      exact key_over s (fun d member => goes d (by simp [member])) blanks some'

theorem gap_value (part : ValuePart value two) : braces false .gap (two ++ s) = braces false .between s := by
  cases part with
  | quoted clean =>
      simp only [List.cons_append,List.append_assoc,List.nil_append]
      exact quotedValue_over s (fun c member => (clean c member).2.2)
  | @bare c value d quote goes halts =>
      simp only [List.cons_append,List.append_assoc,List.nil_append]
      rw [braces,if_neg (by simp [goes c (by simp)]),if_neg quote]
      simpa using value_over s (fun d member => goes d (by simp [member])) halts

end

theorem loneReturn_rest (front : Str) {s : Str} (whole : loneReturn (front ++ s) = false) : loneReturn s = false := by
  induction front with
  | nil => exact whole
  | cons c front ih =>
      refine ih ?_
      rw [List.cons_append] at whole
      unfold loneReturn at whole
      split at whole
      · rename_i same
        obtain ⟨-,same⟩ := List.cons.inj same
        rw [same]
        simp only [Bool.or_eq_false_iff] at whole
        exact whole.2
      · rename_i same
        obtain ⟨-,same⟩ := List.cons.inj same
        rwa [same]
      · rename_i same
        cases same

theorem item_braces (item : Item token used rest) (whole : loneReturn (used ++ rest) = false) :
    braces false .between (used ++ rest) = token.toList.flatMap Token.braces ++ braces false .between rest := by
  cases item with
  | opened => rfl
  | closed => rfl
  | space blank => exact between_space rest (by simp only [List.mem_cons,List.not_mem_nil,or_false] at blank; rcases blank with rfl | rfl | rfl <;> rfl)
  | carriage _ => exact between_space rest rfl
  | carriageFeed => rfl
  | block closeless =>
      simp only [List.cons_append,List.append_assoc,List.nil_append]
      exact (block_over rest closeless).1
  | line oneLine =>
      simp only [List.cons_append,List.append_assoc,List.nil_append]
      exact line_over _ oneLine
  | lineFeed oneLine =>
      simp only [List.cons_append,List.append_assoc,List.nil_append]
      exact line_over _ oneLine
  | @lineCarriage note d _ oneLine apart =>
      have found := loneReturn_rest ('/' :: '/' :: note) (show loneReturn ('/' :: '/' :: note ++ '\r' :: d :: rest) = false by simpa using whole)
      simp [loneReturn,apart] at found
  | entry one two =>
      rw [List.append_assoc,between_key _ one,gap_value _ two]
      rfl

theorem spells_braces (spells : Spells s all) (whole : loneReturn s = false) : braces false .between s = all.flatMap Token.braces := by
  induction spells with
  | stop stops =>
      rcases stops with rfl | ⟨note,oneLine,rfl | rfl⟩
      · rfl
      · have over' := line_over [] oneLine
        rw [List.append_nil] at over'
        exact over'
      · exact line_over ['\r'] oneLine
  | item item _ ih =>
      rw [item_braces item whole,ih (loneReturn_rest _ whole),List.flatMap_append]

-- Where no carriage return stands alone the reader of the text finds the parser's braces.
theorem parsed_braces (parsed : fileToTconfig h contents (.tree later)) (whole : loneReturn (heard contents) = false) :
    braces false .between (heard contents) = (tokens contents).flatMap Token.braces := by
  obtain ⟨all,spells⟩ := gives_spells ((file_gives h contents later).mp parsed)
  rw [spells_braces spells whole,tokens,spells_lexed spells (Nat.le_refl _)]

theorem accepted_balanced (parsed : fileToTconfig h contents (.tree later)) (reads : outline (tokens contents) = some o) (inWords : Bool) :
    (∃ word : DyckWord, word.toList = braces inWords .between (heard contents)) ↔ EndsOutside contents o inWords := by
  rw [balanced_depth]
  cases inWords with
  | true => exact Iff.rfl
  | false =>
      cases lone : loneReturn (heard contents) with
      | true => simp [EndsOutside,lone,DepthReturns]
      | false =>
          have depth := outline_depth reads
          simp only [Outline.start,List.length_nil] at depth
          rw [parsed_braces parsed lone,depth]
          simp [EndsOutside,lone]

section accepted
variable {o : Outline} {levels : Levels Entry} {h : Heap Entry} {block head : Nat} {contents : Str}
  (pictured : Pictured head o levels h block)
include pictured

-- A block of the tree is blank on a level with nothing else, or one of the file's entries.
theorem block_label (within : Linked.Within h head p) : ∃ n path row, cell h p = some n ∧ o.rows path = some row ∧
    (row = [] ∧ n.label = .blank ∨ n.label ∈ row) := by
  obtain ⟨path,i,here⟩ := within_placed pictured.laid pictured.top within
  obtain ⟨label,inRow,live⟩ := placed_cell pictured.laid here
  have shows := row_get (pictured.shows path) inRow
  cases known : o.rows path with
  | none =>
      rw [known] at shows
      cases shows
  | some row =>
      rw [known] at shows
      have member := List.mem_of_getElem? shows
      refine ⟨_,path,row,live,known,?_⟩
      cases row with
      | nil => exact .inl ⟨rfl,List.mem_singleton.mp member⟩
      | cons e rest => exact .inr member

theorem row_block (path : List Nat) (e : Entry) (member : e ∈ shown (o.rows path)) : ∃ p n, Linked.Within h head p ∧ cell h p = some n ∧ n.label = e := by
  rw [← pictured.shows path] at member
  obtain ⟨⟨p,label⟩,inRow,rfl⟩ := List.mem_map.mp member
  obtain ⟨i,bound,same⟩ := List.mem_iff_getElem.mp inRow
  have inRow' : (levels path)[i]? = some (p,label) := by rw [List.getElem?_eq_getElem bound,same]
  have here : placeAt levels path i = some p := placeAt_some.mpr ⟨label,inRow'⟩
  exact ⟨p,_,placed_within pictured.laid pictured.top here,pictured.laid.cells _ _ _ _ inRow',rfl⟩

variable (tidy : Tidy o (tokens contents))
include tidy

theorem accepted_filled : (∀ p, Linked.Within h head p → ∃ n key value, cell h p = some n ∧ n.label = ⟨some key,some value⟩) ↔
    ∀ path, o.rows path ≠ some [] := by
  constructor
  · intro filled path empty
    obtain ⟨p,n,within,live,blank⟩ := row_block pictured path .blank (by rw [empty]; exact List.mem_singleton.mpr rfl)
    obtain ⟨n',key,value,live',label⟩ := filled p within
    rw [live] at live'
    cases live'
    rw [blank] at label
    cases label
  · intro written p within
    obtain ⟨n,path,row,live,known,⟨rfl,-⟩ | member⟩ := block_label pictured within
    · exact absurd known (written path)
    · obtain ⟨key,value,-,label⟩ := tidy.source _ _ known _ member
      exact ⟨n,key.text,value.text,live,label⟩

theorem accepted_lines : (∀ p n, Linked.Within h head p → cell h p = some n →
      (∀ key, n.label.key = some key → OneLine key) ∧ (∀ value, n.label.value = some value → OneLine value)) ↔
    ∀ key value, .entry key value ∈ tokens contents → key.bare = true → OneLine key.text := by
  constructor
  · intro lines key value member _
    obtain ⟨path,row,known,inRow⟩ := tidy.target key value member
    obtain ⟨p,n,within,live,label⟩ := row_block pictured path (key.pair value) (by
      rw [known,shown_written (List.ne_nil_of_mem inRow)]
      exact inRow)
    exact (lines p n within live).1 key.text (by rw [label]; rfl)
  · intro keys p n within live
    obtain ⟨n',path,row,live',known,label⟩ := block_label pictured within
    rw [live] at live'
    cases live'
    rcases label with ⟨-,blank⟩ | member
    · rw [blank]
      exact ⟨nofun,nofun⟩
    · obtain ⟨key,value,written,label⟩ := tidy.source _ _ known _ member
      obtain ⟨quoted,oneLine⟩ := entry_lines written
      rw [label]
      refine ⟨?_,?_⟩
      · rintro _ ⟨⟩
        cases bare : key.bare with
        | true => exact keys key value written bare
        | false => exact quoted bare
      · rintro _ ⟨⟩
        exact oneLine

end accepted

theorem accepted_complete (parsed : fileToTconfig h contents (.tree later)) (inWords : Bool) :
    Complete inWords contents later h.length ↔ WholeFile inWords contents := by
  obtain ⟨o,levels,block,reads,pictured,tidy⟩ := parsed_pictured parsed
  constructor
  · rintro ⟨balanced,filled,lines⟩
    refine ⟨⟨o,reads,(accepted_balanced parsed reads inWords).mp balanced,(accepted_filled pictured tidy).mp filled⟩,?_⟩
    exact (accepted_lines pictured tidy).mp lines
  · rintro ⟨⟨o',reads',outside,written⟩,keys⟩
    obtain rfl : o = o' := Option.some.inj (reads.symm.trans reads')
    refine ⟨(accepted_balanced parsed reads inWords).mpr outside,(accepted_filled pictured tidy).mpr written,?_⟩
    exact (accepted_lines pictured tidy).mpr keys

theorem nested_complete : ∃ later, fileToTconfig [] ['a',' ','b',' ','{','c',' ','d',' ','}'] (.tree later) ∧
    Complete false ['a',' ','b',' ','{','c',' ','d',' ','}'] later 0 := by
  have read : tokens ['a',' ','b',' ','{','c',' ','d',' ','}'] =
      [.entry ⟨['a'],true⟩ ⟨['b'],true⟩,.opened,.entry ⟨['c'],true⟩ ⟨['d'],true⟩,.closed] := rfl
  have reads : outline (tokens ['a',' ','b',' ','{','c',' ','d',' ','}']) =
      some ⟨[],0,Function.update (Function.update (Function.update Outline.start.rows [] (some [⟨some ['a'],some ['b']⟩]))
        [0] (some [])) [0] (some [⟨some ['c'],some ['d']⟩])⟩ := by
    rw [read]
    rfl
  refine ⟨_,nested_parsed,(accepted_complete nested_parsed false).mpr ⟨⟨_,reads,rfl,?_⟩,?_⟩⟩
  · intro path
    simp only [Function.update_apply,Outline.start]
    split
    · simp
    · split <;> simp
  · intro key value member _
    rw [read] at member
    rcases List.mem_cons.mp member with same | member
    · cases same
      simp [OneLine]
    · obtain ⟨rfl,rfl⟩ : key = ⟨['c'],true⟩ ∧ value = ⟨['d'],true⟩ := by simpa using member
      simp [OneLine]

-- An open block at the end of the file is accepted, with a blank block in it.
theorem unclosed_accepted : ∃ later, fileToTconfig [] ['a',' ','b',' ','{'] (.tree later) ∧
    ∀ inWords, ¬Complete inWords ['a',' ','b',' ','{'] later 0 := by
  refine ⟨[some ⟨⟨some ['a'],some ['b']⟩,none,none,none,some 1⟩,some ⟨.blank,none,none,some 0,none⟩],?_,?_⟩
  · exact ends_later rfl (ends_later rfl (ends_now rfl))
  · intro inWords complete
    obtain ⟨n,key,value,live,label⟩ := complete.filled 1 (.child .root rfl rfl)
    cases live
    cases label

end Trollbot.Tconfig

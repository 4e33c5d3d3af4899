import Trollbot.Foundation.Framing
import Trollbot.IrcParse

-- tssv_split: the words of a line, counted by one pass and copied by another.
namespace Trollbot.Tssv
open CBuffer Framing IrcParse

def isBlank (c : Char) : Bool := c == ' ' || c == '\t'

-- The first pass. `blank` marks its inner loop, over the rest of a stretch of blanks. What it adds up
-- in whole_size is not used.
def listSize (blank : Bool) : Str → Nat
  | [] => 1
  | c :: sch =>
    if isBlank c then (if blank then listSize true sch else 1 + listSize true sch)
    else listSize false sch

-- The second pass.
def copyWords : Nat → Str → List Str
  | 0,_ => []
  | n+1,sch => sch.takeWhile (fun c => !isBlank c) :: copyWords n ((sch.dropWhile (fun c => !isBlank c)).dropWhile isBlank)

def tssvSplit (ptr : Str) : Option (List Str) :=
  let sch := ptr.dropWhile isBlank
  if sch = [] then none else some (copyWords (listSize false sch) sch)

def sizeofPointer : Nat := 8

-- The pointers that a block has room for. malloc may make it larger than it is asked to, which
-- `usable` stands for; what is beyond the size is not zeroed.
def pointers (usable : Nat → Nat) (size : Nat) : Slots :=
  List.replicate (size / sizeofPointer) (some none) ++ List.replicate (usable size / sizeofPointer - size / sizeofPointer) none

-- The array that is returned, with the words and a null pointer behind them. The outer none is a
-- write outside its block.
def tssvArray (usable : Nat → Nat) (ptr : Str) : Option (Option Slots) :=
  match tssvSplit ptr with
  | none => some none
  | some found => (write (pointers usable (sizeofPointer * found.length + 1)) 0 (found.map (fun word => some (some word)) ++ [some none])).map some

def tstrcount : Option Slots → Option Int
  | none => some (-1)
  | some slots => (words slots).map (fun found => found.length)

-- What is promised of the result: the maximal stretches without blanks, in order.
structure Splits (usable : Nat → Nat) (ptr : Str) (result : Option Slots) : Prop where
  blank : result = none ↔ ∀ c ∈ ptr, isBlank c = true
  found : ∀ slots, result = some slots → words slots = some (runs isBlank ptr)
  counted : result ≠ none → tstrcount result = some ((runs isBlank ptr).length : Int)
  last : ∀ slots, result = some slots → slots[(runs isBlank ptr).length - 1]? = some (some (runs isBlank ptr).getLast?)

def Split (usable : Nat → Nat) (ptr : Str) : Prop := ∃ result, tssvArray usable ptr = some result ∧ Splits usable ptr result

-- The text does not end in a blank.
def Closed (ptr : Str) : Prop := ∀ c ∈ ptr.getLast?, isBlank c = false

instance (ptr : Str) : Decidable (Closed ptr) := inferInstanceAs (Decidable (∀ c ∈ ptr.getLast?, isBlank c = false))

theorem head_dropWhile {s : Str} {c : Char} (first : c ∈ (s.dropWhile isBlank).head?) : isBlank c = false := by
  have stops := List.head?_dropWhile_not isBlank s
  rw [Option.mem_def.mp first] at stops
  simpa using stops

theorem size_word (word : Str) (rest : Str) (plain : ∀ c ∈ word, isBlank c = false) :
    listSize false (word ++ rest) = listSize false rest := by
  induction word with
  | nil => rfl
  | cons c word ih =>
      have here := plain c (by simp)
      simp only [List.cons_append,listSize,here,Bool.false_eq_true,if_false]
      exact ih (fun d member => plain d (by simp [member]))

theorem size_blanks (s : Str) : listSize true s = listSize false (s.dropWhile isBlank) := by
  induction s with
  | nil => rfl
  | cons c s ih =>
      cases blank : isBlank c with
      | true => simp [listSize,blank,ih]
      | false => simp [listSize,blank]

-- A stretch of blanks is not the end of what comes before it unless it is the end of all.
theorem closed_after (front : Str) {gap : Str} (after : Str) (blanks : ∀ c ∈ gap, isBlank c = true) (some' : gap ≠ []) :
    Closed (front ++ gap ++ after) ↔ after ≠ [] ∧ Closed after := by
  rcases List.eq_nil_or_concat after with rfl | ⟨more,last,rfl⟩
  · obtain ⟨less,end',rfl⟩ := (List.eq_nil_or_concat gap).resolve_left some'
    have blank := blanks end' (by simp)
    simp [Closed,← List.append_assoc,blank]
  · simp [Closed,← List.append_assoc]

-- The words as they are copied. One more, an empty one, is counted where the text ends in a blank.
theorem copied (s : Str) (front : ∀ c ∈ s.head?, isBlank c = false) :
    copyWords (listSize false s) s = runs isBlank s ++ if s ≠ [] ∧ Closed s then [] else [[]] := by
  induction length : s.length using Nat.strong_induction_on generalizing s with
  | _ n ih =>
      by_cases found : ∃ c ∈ s, isBlank c = true
      · obtain ⟨stop,rest,whole,isStop,dropped⟩ := line_parts isBlank found
        have plain := lineOf_plain isBlank (s := s)
        have size : listSize false s = 1 + listSize false (afterLine isBlank s) := by
          rw [dropped,← size_blanks]
          conv_lhs => rw [whole,size_word _ _ plain]
          simp [listSize,isStop]
        have parts : s = lineOf isBlank s ++ (stop :: rest.takeWhile isBlank) ++ afterLine isBlank s := by
          rw [dropped,List.append_assoc,List.cons_append,List.takeWhile_append_dropWhile]
          exact whole
        have blanks : ∀ c ∈ stop :: rest.takeWhile isBlank, isBlank c = true := by
          intro c member
          rcases List.mem_cons.mp member with rfl | later
          · exact isStop
          · exact List.mem_takeWhile_imp later
        have word : lineOf isBlank s ≠ [] := by
          intro none
          rw [none] at whole
          have first := front stop (by rw [whole]; rfl)
          rw [isStop] at first
          cases first
        have shorter := afterLine_shorter isBlank found
        have next := ih _ (length ▸ shorter) (afterLine isBlank s) (by
          rw [dropped]
          intro c first
          exact head_dropWhile first) rfl
        have split : runs isBlank s = lineOf isBlank s :: runs isBlank (afterLine isBlank s) := by
          conv_lhs => rw [parts]
          rw [runs_line isBlank _ _ _ plain blanks (by simp)]
          simp [nonEmpty,word]
        have ends : (s ≠ [] ∧ Closed s) ↔ afterLine isBlank s ≠ [] ∧ Closed (afterLine isBlank s) := by
          have same := closed_after (lineOf isBlank s) (afterLine isBlank s) blanks (by simp)
          rw [← parts] at same
          rw [same]
          refine ⟨And.right,fun closed => ⟨?_,closed⟩⟩
          rintro rfl
          simp at whole
        rw [size,Nat.add_comm,split]
        simp only [ends,List.cons_append,← next]
        rfl
      · have plain : ∀ c ∈ s, isBlank c = false := by
          intro c member
          exact Bool.eq_false_iff.mpr (fun blank => found ⟨c,member,blank⟩)
        have size : listSize false s = 1 := by simpa [listSize] using size_word s [] plain
        have closed : Closed s := fun c last => plain c (List.mem_of_mem_getLast? last)
        have taken : s.takeWhile (fun c => !isBlank c) = s := by
          rw [List.takeWhile_eq_self_iff]
          simpa using plain
        rw [size,runs_plain isBlank s plain,copyWords,copyWords,taken]
        by_cases empty : s = []
        · simp [empty,nonEmpty]
        · simp [empty,nonEmpty,closed]

theorem closed_start (ptr : Str) (some' : ptr.dropWhile isBlank ≠ []) : Closed (ptr.dropWhile isBlank) ↔ Closed ptr := by
  obtain ⟨front,last,same⟩ := (List.eq_nil_or_concat (ptr.dropWhile isBlank)).resolve_left some'
  have whole := List.takeWhile_append_dropWhile (p := isBlank) (l := ptr)
  rw [same] at whole
  rw [same,← whole]
  simp [Closed,← List.append_assoc]

theorem split_none : tssvSplit ptr = none ↔ ∀ c ∈ ptr, isBlank c = true := by
  rw [← List.dropWhile_eq_nil_iff]
  by_cases blank : ptr.dropWhile isBlank = []
  · simp [tssvSplit,blank]
  · simp [tssvSplit,blank]

theorem split_some (split : tssvSplit ptr = some found) : found = runs isBlank ptr ++ if Closed ptr then [] else [[]] := by
  unfold tssvSplit at split
  by_cases blank : ptr.dropWhile isBlank = []
  · simp [blank] at split
  · simp only [blank,if_false,Option.some.injEq] at split
    rw [← split,copied _ (fun c first => head_dropWhile first),runs_dropWhile]
    simp [blank,closed_start ptr blank]

theorem size_positive (blank : Bool) (s : Str) : 0 < listSize blank s := by
  induction s generalizing blank with
  | nil => simp [listSize]
  | cons c s ih =>
      unfold listSize
      split
      · split
        · exact ih true
        · omega
      · exact ih false

theorem split_word (split : tssvSplit ptr = some found) : found ≠ [] := by
  unfold tssvSplit at split
  by_cases blank : ptr.dropWhile isBlank = []
  · simp [blank] at split
  · simp only [blank,if_false,Option.some.injEq] at split
    subst split
    cases size : listSize false (ptr.dropWhile isBlank) with
    | zero => exact absurd size (Nat.ne_of_gt (size_positive _ _))
    | succ n => simp [copyWords]

theorem pointers_length (usable : Nat → Nat) (n : Nat) :
    (pointers usable (sizeofPointer * n + 1)).length = max n (usable (sizeofPointer * n + 1) / sizeofPointer) := by
  simp only [pointers,List.length_append,List.length_replicate,sizeofPointer]
  omega

-- The array with all that was copied, where the null pointer has its room too.
theorem array_iff (split : tssvSplit ptr = some found) :
    (∃ result, tssvArray usable ptr = some result) ↔ sizeofPointer * (found.length + 1) ≤ usable (sizeofPointer * found.length + 1) := by
  have room := pointers_length usable found.length
  simp only [sizeofPointer] at room
  constructor
  · rintro ⟨result,made⟩
    simp only [tssvArray,split] at made
    obtain ⟨slots,written,-⟩ := Option.map_eq_some_iff.mp made
    unfold write at written
    split at written
    · rename_i fits
      simp [sizeofPointer] at fits ⊢
      omega
    · cases written
  · intro fits
    simp only [sizeofPointer] at fits
    obtain ⟨slots,written⟩ := write_fits (pointers usable (sizeofPointer * found.length + 1)) 0
      (found.map (fun word => some (some word)) ++ [some none]) (by simp [sizeofPointer]; omega)
    exact ⟨some slots,by simp [tssvArray,split,written]⟩

theorem array_words (split : tssvSplit ptr = some found) (made : tssvArray usable ptr = some result) :
    ∃ slots, result = some slots ∧ words slots = some found := by
  simp only [tssvArray,split] at made
  obtain ⟨slots,written,rfl⟩ := Option.map_eq_some_iff.mp made
  refine ⟨slots,rfl,words_of_slots ?_ ?_⟩
  · intro i word here
    have inside := (List.getElem?_eq_some_iff.mp here).1
    rw [write_get written,if_pos (by simp; omega),Nat.sub_zero,List.getElem?_append_left (by simpa using inside)]
    simp [here]
  · rw [write_get written,if_pos (by simp)]
    simp

-- What the documented result is: no word is lost and none is made up.
theorem array_splits (split : tssvSplit ptr = some found) (made : tssvArray usable ptr = some result) :
    Splits usable ptr result ↔ Closed ptr := by
  obtain ⟨slots,rfl,read⟩ := array_words split made
  have words' := split_some split
  constructor
  · intro splits
    by_cases closed : Closed ptr
    · exact closed
    · have same := (read.symm.trans (splits.found slots rfl))
      rw [words',if_neg closed] at same
      simp at same
  · intro closed
    rw [if_pos closed,List.append_nil] at words'
    subst words'
    obtain ⟨cells,-⟩ := words_cells read
    have blank := fun all => (split_none.mpr all).symm.trans split
    refine ⟨⟨fun none => (by cases none),fun all => (by cases blank all)⟩,?_,?_,?_⟩
    · rintro _ ⟨⟩
      exact read
    · intro _
      simp [tstrcount,read]
    · rintro _ ⟨⟩
      cases last : (runs isBlank ptr).getLast? with
      | none =>
          exact absurd (List.getLast?_eq_none_iff.mp last) (split_word split)
      | some word =>
          rw [List.getLast?_eq_getElem?] at last
          exact cells _ word last

theorem split_words (usable : Nat → Nat) (ptr : Str) : Split usable ptr ↔ (∀ c ∈ ptr, isBlank c = true) ∨
    (Closed ptr ∧ sizeofPointer * ((runs isBlank ptr).length + 1) ≤ usable (sizeofPointer * (runs isBlank ptr).length + 1)) := by
  cases split : tssvSplit ptr with
  | none =>
      have blank := split_none.mp split
      refine ⟨fun _ => .inl blank,fun _ => ⟨none,by simp [tssvArray,split],⟨fun _ => blank,fun _ => rfl⟩,?_,?_,?_⟩⟩
      · rintro _ ⟨⟩
      · exact fun some => absurd rfl some
      · rintro _ ⟨⟩
  | some found =>
      have word : ¬∀ c ∈ ptr, isBlank c = true := fun blank => by
        rw [split_none.mpr blank] at split
        cases split
      have words' := split_some split
      constructor
      · rintro ⟨result,made,splits⟩
        have closed := (array_splits split made).mp splits
        have fits := (array_iff split).mp ⟨result,made⟩
        rw [if_pos closed,List.append_nil] at words'
        exact .inr ⟨closed,words' ▸ fits⟩
      · rintro (blank | ⟨closed,fits⟩)
        · exact absurd blank word
        · rw [if_pos closed,List.append_nil] at words'
          obtain ⟨result,made⟩ := (array_iff split).mpr (words' ▸ fits)
          exact ⟨result,made,(array_splits split made).mpr closed⟩

-- The sizes of glibc's blocks, whose headers and alignment leave room for the null pointer.
def mallocUsable (size : Nat) : Nat := max 24 ((size + 23) / 16 * 16 - 8)

-- The word behind the last blank is not there.
theorem trailing_blank_counts : ¬Split mallocUsable ['1','-','0',' '] := by
  rintro ⟨result,made,splits⟩
  have closed := (array_splits rfl made).mp splits
  revert closed
  decide

end Trollbot.Tssv

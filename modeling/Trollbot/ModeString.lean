import Trollbot.IrcProto
import Mathlib.Data.List.Induction

-- The mode letters of one user under one change after another.
namespace Trollbot.Irc
open CBuffer

-- A null pointer, or some of the letters o and v with spaces between.
def ModeLetters (modes : Option Str) : Prop := ∀ s, modes = some s → s ≠ [] ∧ ∀ e ∈ s, e = 'o' ∨ e = 'v' ∨ e = ' '

def setLetter (c : Char) (s : Str) : Str :=
  if c ∈ s then s else if ' ' ∈ s then s.replace ' ' c else s.dropLast ++ [c]

def putMode (plus : Bool) (c : Char) : Option Str → Option Str
  | none => if plus then some [c] else none
  | some modes => some (if plus then setLetter c modes else modes.replace c ' ')

-- Signed letters, in the order of the message.
def putModes (modes : Option Str) (l : List (Bool × Char)) : Option Str := l.foldl (fun modes ch => putMode ch.1 ch.2 modes) modes

-- The sign of the last change of a letter, and the changes after it.
def lastSign (c : Char) (l : List (Bool × Char)) : Option Bool := (l.reverse.find? (fun ch => ch.2 = c)).map (·.1)
def changesSince (c : Char) (l : List (Bool × Char)) : List (Bool × Char) := l.reverse.takeWhile (fun ch => ch.2 ≠ c)

def wanted (c : Char) (modes : Option Str) (l : List (Bool × Char)) : Bool := (lastSign c l).getD (decide (c ∈ modes.getD []))

-- Another letter is set while every letter is c.
def Displaces (c : Char) (s : Str) (l : List (Bool × Char)) : Prop :=
  (∀ e ∈ s, e = c) ∧ ∃ ch ∈ l.takeWhile (fun ch => ch ≠ (false,c)), ch.1 = true ∧ ch.2 ≠ c

instance : Decidable (Displaces c s l) := inferInstanceAs (Decidable (_ ∧ _))

-- How often c has been taken out of a string that had it more than once.
def takenOut (c : Char) (s : Str) (l : List (Bool × Char)) : Nat := l.count (false,c) + if Displaces c s l then 1 else 0

-- With room for one letter, a letter that has to be there is not followed by another one that is
-- set; with more room, one that must not be there was taken out as often as the string had it.
def LetterKept (c : Char) (modes : Option Str) (l : List (Bool × Char)) : Prop :=
  if (modes.getD []).length ≤ 1 then wanted c modes l = true → ∀ ch ∈ changesSince c l, ch.1 = false
  else wanted c modes l = true ∨ (modes.getD []).count c ≤ takenOut c (modes.getD []) l

instance : Decidable (LetterKept c modes l) :=
  inferInstanceAs (Decidable (if (modes.getD []).length ≤ 1 then wanted c modes l = true → ∀ ch ∈ changesSince c l, ch.1 = false
    else wanted c modes l = true ∨ (modes.getD []).count c ≤ takenOut c (modes.getD []) l))

theorem replace_skip {s : Str} (differs : e ≠ c) (d : Char) : (e :: s).replace c d = e :: s.replace c d := by
  rw [List.replace_cons,beq_false_of_ne (Ne.symm differs)]

theorem mem_replace {s : Str} (member : e ∈ s.replace c d) : e ∈ s ∨ e = d := by
  induction s with
  | nil => cases member
  | cons f rest ih =>
      by_cases same : f = c
      · subst same
        rw [List.replace_cons_self] at member
        rcases List.mem_cons.mp member with rfl | old
        · exact .inr rfl
        · exact .inl (by simp [old])
      · rw [replace_skip same] at member
        rcases List.mem_cons.mp member with rfl | later
        · exact .inl (by simp)
        · exact (ih later).imp_left (fun old => by simp [old])

theorem replace_here {s : Str} (here : c ∈ s) (d : Char) :
    s.takeWhile (fun e => e ≠ c) ++ d :: (s.dropWhile (fun e => e ≠ c)).tail = s.replace c d := by
  induction s with
  | nil => cases here
  | cons e rest ih =>
      by_cases same : e = c
      · simp [same]
      · have later : c ∈ rest := by simpa [Ne.symm same] using here
        have tail := ih later
        simp only [ne_eq,decide_not] at tail
        rw [replace_skip same]
        simpa [same] using tail

theorem count_replace (c d e : Char) (s : Str) (here : c ∈ s) :
    (s.replace c d).count e + (if c = e then 1 else 0) = s.count e + if d = e then 1 else 0 := by
  induction s with
  | nil => cases here
  | cons f rest ih =>
      by_cases same : f = c
      · subst same
        simp only [List.replace_cons_self,List.count_cons,beq_iff_eq]
        omega
      · have later : c ∈ rest := by simpa [Ne.symm same] using here
        have tail := ih later
        rw [replace_skip same,List.count_cons,List.count_cons]
        omega

theorem addMode_sound {s : Str} (some' : s ≠ []) (clean : nul ∉ s) : addMode c (some s) = some (some (setLetter c s)) := by
  simp only [addMode,setLetter]
  split
  · rfl
  · split
    · rename_i space
      rw [replace_here space]
    · have positive : 0 < s.length := List.length_pos_of_ne_nil some'
      obtain ⟨after,done⟩ := tcrealloc0_runs (ofText s) (s.length + 2) positive
      have cells := fun i => grow_get (i := i) (tcrealloc0_grows done)
      have kept : text after = some s.dropLast := by
        refine text_of_cells (fun member => clean (List.dropLast_subset s member)) ?_ ?_
        · intro i e here
          have inside := (List.getElem?_eq_some_iff.mp here).1
          rw [List.length_dropLast] at inside
          have old : s[i]? = some e := by rwa [List.getElem?_dropLast,if_pos inside] at here
          rw [cells i (by omega),if_neg (by omega),if_pos (by simp; omega)]
          simp [ofText,List.getElem?_append_left (show i < (s.map some).length by simp; omega),old]
        · rw [List.length_dropLast,cells (s.length - 1) (by omega),if_pos (by omega)]
      simp [done,kept]

theorem changeMode_sound (sound : ModeLetters modes) : changeMode plus c modes = some (putMode plus c modes) := by
  unfold changeMode putMode
  cases modes with
  | none => cases plus <;> rfl
  | some s =>
      obtain ⟨some',letters⟩ := sound s rfl
      have clean : nul ∉ s := by
        intro member
        rcases letters nul member with is | is | is <;> revert is <;> decide
      cases plus with
      | true => exact addMode_sound some' clean
      | false =>
          simp only [Bool.false_eq_true,if_false,dropMode,Option.map_some]
          split
          · rename_i here
            rw [replace_here here]
          · rename_i absent
            rw [List.replace_of_not_mem absent]

theorem set_length {s : Str} (some' : s ≠ []) (c : Char) : (setLetter c s).length = s.length := by
  have positive : 0 < s.length := List.length_pos_of_ne_nil some'
  unfold setLetter
  split
  · rfl
  · split
    · exact List.length_replace
    · simp only [List.length_append,List.length_dropLast,List.length_singleton]
      omega

theorem mem_set {s : Str} (member : e ∈ setLetter c s) : e ∈ s ∨ e = c := by
  unfold setLetter at member
  split at member
  · exact .inl member
  · split at member
    · exact mem_replace member
    · rcases List.mem_append.mp member with old | new
      · exact .inl (List.dropLast_subset s old)
      · exact .inr (List.mem_singleton.mp new)

theorem put_sound (plus : Bool) (sound : ModeLetters modes) (letter : c = 'o' ∨ c = 'v') : ModeLetters (putMode plus c modes) := by
  intro s same
  cases modes with
  | none =>
      cases plus with
      | false => cases same
      | true =>
          obtain rfl := Option.some.inj same
          refine ⟨by simp,?_⟩
          intro e member
          obtain rfl := List.mem_singleton.mp member
          exact letter.imp_right .inl
  | some old =>
      obtain ⟨some',letters⟩ := sound old rfl
      obtain rfl := Option.some.inj same
      have positive := List.length_pos_of_ne_nil some'
      cases plus with
      | true =>
          refine ⟨List.ne_nil_of_length_pos (by simpa [set_length some'] using positive),?_⟩
          intro e member
          rcases mem_set member with before | rfl
          · exact letters e before
          · exact letter.imp_right .inl
      | false =>
          refine ⟨List.ne_nil_of_length_pos (by simpa using positive),?_⟩
          intro e member
          rcases mem_replace member with before | rfl
          · exact letters e before
          · exact .inr (.inr rfl)

@[simp] theorem putModes_snoc (modes : Option Str) (l : List (Bool × Char)) (ch : Bool × Char) :
    putModes modes (l ++ [ch]) = putMode ch.1 ch.2 (putModes modes l) := by
  simp [putModes]

theorem lastSign_snoc (c : Char) (l : List (Bool × Char)) (ch : Bool × Char) :
    lastSign c (l ++ [ch]) = if ch.2 = c then some ch.1 else lastSign c l := by
  unfold lastSign
  by_cases own : ch.2 = c
  · simp [own]
  · simp [own]

theorem since_snoc (c : Char) (l : List (Bool × Char)) (ch : Bool × Char) :
    changesSince c (l ++ [ch]) = if ch.2 = c then [] else ch :: changesSince c l := by
  unfold changesSince
  by_cases own : ch.2 = c
  · simp [own]
  · simp [own]

theorem wanted_snoc (c : Char) (modes : Option Str) (l : List (Bool × Char)) (ch : Bool × Char) :
    wanted c modes (l ++ [ch]) = if ch.2 = c then ch.1 else wanted c modes l := by
  unfold wanted
  rw [lastSign_snoc]
  split <;> rfl

theorem displaces_snoc (c : Char) (s : Str) (l : List (Bool × Char)) (ch : Bool × Char) :
    Displaces c s (l ++ [ch]) ↔ Displaces c s l ∨ (∀ e ∈ s, e = c) ∧ (false,c) ∉ l ∧ ch.1 = true ∧ ch.2 ≠ c := by
  have front : (l ++ [ch]).takeWhile (fun ch => ch ≠ (false,c)) = l.takeWhile (fun ch => ch ≠ (false,c)) ++
      if (false,c) ∈ l then [] else if ch = (false,c) then [] else [ch] := by
    induction l with
    | nil => by_cases own : ch = (false,c) <;> simp [own]
    | cons first rest ih =>
        by_cases own : first = (false,c)
        · simp [own]
        · simp only [ne_eq,decide_not] at ih
          simp [own,Ne.symm own,ih]
  unfold Displaces
  rw [front]
  constructor
  · rintro ⟨all,other,member,plus,differs⟩
    rcases List.mem_append.mp member with early | late
    · exact .inl ⟨all,other,early,plus,differs⟩
    · split at late
      · cases late
      · rename_i absent
        split at late
        · cases late
        · obtain rfl := List.mem_singleton.mp late
          exact .inr ⟨all,absent,plus,differs⟩
  · rintro (⟨all,other,member,plus,differs⟩ | ⟨all,absent,plus,differs⟩)
    · exact ⟨all,other,List.mem_append_left _ member,plus,differs⟩
    · refine ⟨all,ch,List.mem_append_right _ ?_,plus,differs⟩
      have own : ch ≠ (false,c) := fun same => differs (congrArg Prod.snd same)
      simp [absent,own]

theorem narrow_put (narrow : (modes.getD []).length ≤ 1) (plus : Bool) (e : Char) : ((putMode plus e modes).getD []).length ≤ 1 ∧
    ∀ c, c ≠ ' ' → (c ∈ (putMode plus e modes).getD [] ↔ if plus then c = e else c ∈ modes.getD [] ∧ c ≠ e) := by
  cases modes with
  | none => cases plus <;> simp [putMode]
  | some s =>
      cases s with
      | nil => cases plus <;> simp [putMode,setLetter]
      | cons d rest =>
          cases rest with
          | cons second rest => simp at narrow
          | nil =>
              cases plus with
              | true =>
                  have only : setLetter e [d] = [e] := by
                    unfold setLetter
                    by_cases same : e = d
                    · simp [same]
                    · by_cases space : ' ' = d
                      · simp [← space,show e ≠ ' ' from fun is => same (is.trans space)]
                      · simp [same,space]
                  simp [putMode,only]
              | false =>
                  by_cases same : d = e
                  · subst same
                    refine ⟨by simp [putMode],?_⟩
                    intro c letter
                    simp [putMode,letter]
                  · refine ⟨by simp [putMode],?_⟩
                    intro c letter
                    simp only [putMode,Bool.false_eq_true,if_false,Option.getD_some,replace_skip same,List.replace_nil,List.mem_singleton]
                    exact ⟨fun is => ⟨is,is ▸ same⟩,And.left⟩

-- One letter at most: the last one that was set is there, unless it was taken out since.
theorem narrow_letters (narrow : (modes.getD []).length ≤ 1) (letter : c ≠ ' ') (l : List (Bool × Char)) :
    ((putModes modes l).getD []).length ≤ 1 ∧
      (c ∈ (putModes modes l).getD [] ↔ wanted c modes l = true ∧ ∀ ch ∈ changesSince c l, ch.1 = false) := by
  induction l using List.reverseRecOn with
  | nil =>
      refine ⟨narrow,?_⟩
      simp [putModes,wanted,lastSign,changesSince]
  | append_singleton front ch ih =>
      obtain ⟨short,exact'⟩ := ih
      obtain ⟨again,letters⟩ := narrow_put short ch.1 ch.2
      refine ⟨by rwa [putModes_snoc],?_⟩
      rw [putModes_snoc,letters c letter,exact',wanted_snoc,since_snoc]
      by_cases own : ch.2 = c
      · cases ch.1 <;> simp [own]
      · cases sign : ch.1 <;> simp [own,Ne.symm own,sign]

theorem count_set_own (s : Str) (letter : c ≠ ' ') : (setLetter c s).count c = max 1 (s.count c) := by
  unfold setLetter
  split
  · rename_i here
    have positive := List.count_pos_iff.mpr here
    omega
  · rename_i absent
    have zero := List.count_eq_zero.mpr absent
    split
    · rename_i space
      have counted := count_replace ' ' c c s space
      rw [if_neg (Ne.symm letter),if_pos rfl] at counted
      omega
    · have rest : s.dropLast.count c = 0 := List.count_eq_zero.mpr (fun member => absent (List.dropLast_subset s member))
      rw [List.count_append,rest,zero,List.count_singleton_self]
      omega

-- Another letter that is set takes a place of c only where c has all of them.
theorem count_set_other {s : Str} (apart : d ≠ c) (letter : c ≠ ' ') (spans : ∀ e ∈ s, e = c ∨ e = d ∨ e = ' ') :
    (setLetter d s).count c = s.count c - if (∀ e ∈ s, e = c) then 1 else 0 := by
  unfold setLetter
  split
  · rename_i here
    rw [if_neg (fun all => apart (all d here))]
    omega
  · rename_i absent
    split
    · rename_i space
      have counted := count_replace ' ' d c s space
      rw [if_neg (Ne.symm letter),if_neg apart] at counted
      rw [if_neg (fun all => letter (all ' ' space).symm)]
      omega
    · rename_i full
      have all : ∀ e ∈ s, e = c := by
        intro e member
        rcases spans e member with is | rfl | rfl
        · exact is
        · exact absurd member absent
        · exact absurd member full
      have own : s.count c = s.length := List.count_eq_length.mpr (fun e member => (all e member).symm)
      have front : s.dropLast.count c = s.dropLast.length :=
        List.count_eq_length.mpr (fun e member => (all e (List.dropLast_subset s member)).symm)
      rw [if_pos all,List.count_append,front,own,List.length_dropLast,List.count_singleton,if_neg (by simpa using apart)]
      omega

theorem count_clear (s : Str) (letter : c ≠ ' ') : (s.replace c ' ').count c = s.count c - 1 ∧
    ∀ d, d ≠ c → c ≠ ' ' → (s.replace d ' ').count c = s.count c := by
  constructor
  · by_cases here : c ∈ s
    · have counted := count_replace c ' ' c s here
      rw [if_pos rfl,if_neg (Ne.symm letter)] at counted
      omega
    · rw [List.replace_of_not_mem here,List.count_eq_zero.mpr here]
  · intro d apart letter
    by_cases here : d ∈ s
    · have counted := count_replace d ' ' c s here
      rw [if_neg apart,if_neg (Ne.symm letter)] at counted
      omega
    · rw [List.replace_of_not_mem here]

theorem taken_own (s : Str) (l : List (Bool × Char)) (plus : Bool) :
    takenOut c s (l ++ [(plus,c)]) = takenOut c s l + if plus then 0 else 1 := by
  have same : Displaces c s (l ++ [(plus,c)]) ↔ Displaces c s l := by
    rw [displaces_snoc]
    simp
  simp only [takenOut,same,List.count_append]
  cases plus
  · simp
    omega
  · simp

theorem displaces_taken (displaces : Displaces c s l) : takenOut c s l = l.count (false,c) + 1 := by
  rw [takenOut,if_pos displaces]

theorem displaces_none (none' : ¬Displaces c s l) : takenOut c s l = l.count (false,c) := by
  rw [takenOut,if_neg none',Nat.add_zero]

theorem count_other (l : List (Bool × Char)) (apart : d ≠ c) (plus : Bool) : (l ++ [(plus,d)]).count (false,c) = l.count (false,c) := by
  rw [List.count_append,List.count_singleton]
  simp [apart]

theorem taken_cleared (s : Str) (l : List (Bool × Char)) (apart : d ≠ c) : takenOut c s (l ++ [(false,d)]) = takenOut c s l := by
  have same : Displaces c s (l ++ [(false,d)]) ↔ Displaces c s l := by
    rw [displaces_snoc]
    simp
  simp only [takenOut,same,count_other l apart]

theorem taken_set {s : Str} (l : List (Bool × Char)) (apart : d ≠ c) :
    ((∀ e ∈ s, e = c) ∧ takenOut c s l = 0 ∧ takenOut c s (l ++ [(true,d)]) = 1) ∨
    (¬((∀ e ∈ s, e = c) ∧ takenOut c s l = 0) ∧ takenOut c s (l ++ [(true,d)]) = takenOut c s l) := by
  have grows := displaces_snoc c s l (true,d)
  have counted := count_other l apart true
  by_cases before : Displaces c s l
  · have now := displaces_taken (grows.mpr (.inl before))
    have old := displaces_taken before
    refine .inr ⟨?_,by omega⟩
    rintro ⟨-,zero⟩
    omega
  · have old := displaces_none before
    by_cases full : (∀ e ∈ s, e = c) ∧ takenOut c s l = 0
    · have absent : (false,c) ∉ l := List.count_eq_zero.mp (by omega)
      have now := displaces_taken (grows.mpr (.inr ⟨full.1,absent,rfl,apart⟩))
      exact .inl ⟨full.1,full.2,by omega⟩
    · have still : ¬Displaces c s (l ++ [(true,d)]) := by
        rw [grows]
        rintro (had | ⟨all,absent,-⟩)
        · exact before had
        · exact full ⟨all,old.trans (List.count_eq_zero.mpr absent)⟩
      have now := displaces_none still
      exact .inr ⟨full,by omega⟩

-- In a string with more than one letter c is there as often as the string had it less what was taken
-- out, or once if it was set since that ran out.
def timesThere (c : Char) (s : Str) (l : List (Bool × Char)) : Nat :=
  if takenOut c s l < s.count c then s.count c - takenOut c s l else if wanted c (some s) l then 1 else 0

theorem times_start (c : Char) (s : Str) : timesThere c s [] = s.count c := by
  have none' : takenOut c s [] = 0 := by simp [takenOut,Displaces]
  unfold timesThere
  rw [none']
  split
  · rfl
  · rename_i absent
    have zero : s.count c = 0 := by omega
    simp [wanted,lastSign,zero,List.count_eq_zero.mp zero]

theorem times_own_set (c : Char) (s : Str) (l : List (Bool × Char)) : timesThere c s (l ++ [(true,c)]) = max 1 (timesThere c s l) := by
  simp only [timesThere,taken_own,wanted_snoc,if_true,Nat.add_zero]
  split
  · omega
  · split <;> rfl

theorem times_own_clear (c : Char) (s : Str) (l : List (Bool × Char)) : timesThere c s (l ++ [(false,c)]) = timesThere c s l - 1 := by
  simp only [timesThere,taken_own,wanted_snoc,if_true,Bool.false_eq_true,if_false]
  by_cases more : takenOut c s l < s.count c
  · rw [if_pos more]
    split <;> omega
  · have none' : ¬takenOut c s l + 1 < s.count c := by omega
    rw [if_neg more,if_neg none']
    split <;> rfl

theorem times_other_clear (s : Str) (l : List (Bool × Char)) (apart : d ≠ c) : timesThere c s (l ++ [(false,d)]) = timesThere c s l := by
  simp only [timesThere,taken_cleared s l apart,wanted_snoc,if_neg apart]

theorem times_other_set {s : Str} (long : 2 ≤ s.length) (l : List (Bool × Char)) (apart : d ≠ c) :
    timesThere c s (l ++ [(true,d)]) = timesThere c s l - if timesThere c s l = s.length then 1 else 0 := by
  have all : (∀ e ∈ s, e = c) ↔ s.count c = s.length := by
    rw [List.count_eq_length]
    exact forall₂_congr fun e _ => eq_comm
  have bound : s.count c ≤ s.length := List.count_le_length
  have before : timesThere c s l = s.length ↔ s.count c = s.length ∧ takenOut c s l = 0 := by
    unfold timesThere
    split
    · omega
    · split <;> omega
  have after : timesThere c s (l ++ [(true,d)]) = if takenOut c s (l ++ [(true,d)]) < s.count c then s.count c - takenOut c s (l ++ [(true,d)])
      else if wanted c (some s) l then 1 else 0 := by
    rw [timesThere,wanted_snoc,if_neg apart]
  rcases taken_set (s := s) l apart with ⟨full,zero,one⟩ | ⟨partly,same⟩
  · rw [all] at full
    rw [if_pos (before.mpr ⟨full,zero⟩),before.mpr ⟨full,zero⟩,after,one,if_pos (by omega),full]
  · rw [all,← before] at partly
    rw [if_neg partly,after,same]
    rfl

theorem wide_letters {s : Str} (long : 2 ≤ s.length) (spans : ∀ e ∈ s, e = 'o' ∨ e = 'v' ∨ e = ' ') (letter : c = 'o' ∨ c = 'v')
    (l : List (Bool × Char)) (letters : ∀ ch ∈ l, ch.2 = 'o' ∨ ch.2 = 'v') : ∃ t, putModes (some s) l = some t ∧ t.length = s.length ∧
      (∀ e ∈ t, e = 'o' ∨ e = 'v' ∨ e = ' ') ∧ t.count c = timesThere c s l := by
  have blank : c ≠ ' ' := by rcases letter with rfl | rfl <;> decide
  induction l using List.reverseRecOn with
  | nil => exact ⟨s,rfl,rfl,spans,(times_start c s).symm⟩
  | append_singleton front ch ih =>
      obtain ⟨t,reached,length,kept,count⟩ := ih (fun other member => letters other (by simp [member]))
      obtain ⟨plus,d⟩ := ch
      have valid : d = 'o' ∨ d = 'v' := letters (plus,d) (by simp)
      have some' : t ≠ [] := List.ne_nil_of_length_pos (by omega)
      have sound : ModeLetters (some t) := fun u same => Option.some.inj same ▸ ⟨some',kept⟩
      have again := put_sound plus sound valid
      refine ⟨if plus then setLetter d t else t.replace d ' ',by rw [putModes_snoc,reached]; rfl,?_,(again _ rfl).2,?_⟩
      · cases plus with
        | true => exact (set_length some' d).trans length
        | false => exact List.length_replace.trans length
      by_cases own : d = c
      · subst own
        cases plus with
        | true => rw [if_pos rfl,count_set_own t blank,count,times_own_set]
        | false => rw [if_neg (by decide),(count_clear t blank).1,count,times_own_clear]
      · cases plus with
        | false => rw [if_neg (by decide),(count_clear t blank).2 d own blank,count,times_other_clear s front own]
        | true =>
            have pair : ∀ e ∈ t, e = c ∨ e = d ∨ e = ' ' := by
              intro e member
              rcases kept e member with rfl | rfl | rfl
              · rcases letter with rfl | rfl
                · exact .inl rfl
                · exact .inr (.inl (valid.resolve_right own).symm)
              · rcases letter with rfl | rfl
                · exact .inr (.inl (valid.resolve_left own).symm)
                · exact .inl rfl
              · exact .inr (.inr rfl)
            have all : (∀ e ∈ t, e = c) ↔ t.count c = t.length := by
              rw [List.count_eq_length]
              exact forall₂_congr fun e _ => eq_comm
            rw [if_pos rfl,count_set_other own blank pair,times_other_set long front own]
            simp only [all,count,length]

-- The letter is there at the end exactly when it has to be.
theorem letter_kept_iff (sound : ModeLetters modes) (letter : c = 'o' ∨ c = 'v') (l : List (Bool × Char))
    (letters : ∀ ch ∈ l, ch.2 = 'o' ∨ ch.2 = 'v') :
    (decide (c ∈ (putModes modes l).getD []) = wanted c modes l) ↔ LetterKept c modes l := by
  have blank : c ≠ ' ' := by rcases letter with rfl | rfl <;> decide
  unfold LetterKept
  split
  · rename_i narrow
    have there := (narrow_letters narrow blank l).2
    cases is : wanted c modes l with
    | false =>
        rw [is] at there
        simp only [Bool.false_eq_true,false_and,iff_false] at there
        simp [there]
    | true =>
        rw [is,eq_self,true_and] at there
        simp [there]
  · rename_i long
    cases modes with
    | none => simp at long
    | some s =>
        have long' : 2 ≤ s.length := Nat.lt_of_not_le long
        obtain ⟨t,reached,-,-,count⟩ := wide_letters long' (sound s rfl).2 letter l letters
        have there : c ∈ t ↔ 0 < timesThere c s l := by rw [← count,List.count_pos_iff]
        rw [reached,Option.getD_some,Option.getD_some]
        unfold timesThere at there
        cases is : wanted c (some s) l with
        | true =>
            have here : c ∈ t := by
              rw [there,is]
              split
              · omega
              · simp
            simp [here]
        | false =>
            rw [is] at there
            simp only [Bool.false_eq_true,if_false] at there
            by_cases more : takenOut c s l < s.count c
            · have here : c ∈ t := there.mpr (by rw [if_pos more]; omega)
              simp [here,more]
            · have absent : c ∉ t := by
                rw [there,if_neg more]
                omega
              simp [absent,Nat.le_of_not_lt more]

end Trollbot.Irc

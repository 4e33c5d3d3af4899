import Trollbot.Wildcards

-- The language of a mask, and what the two matchers accept of it.
namespace Trollbot
open Machine
open Irc (isspace trollMatchwilds)

def Wildcard (c : Char) : Prop := c = '?' ∨ c = '*' ∨ c = '%' ∨ c = '~' ∨ c = '\\'

-- A mask and a text in its language. Nothing is in the language of a mask that ends in a lone backslash.
inductive Matches : Str → Str → Prop where
  | nil : Matches [] []
  | any : Matches mask rest → Matches ('?' :: mask) (c :: rest)
  | star (taken : Str) : Matches mask rest → Matches ('*' :: mask) (taken ++ rest)
  | word : (∀ c ∈ taken, isspace c = false) → Matches mask rest → Matches ('%' :: mask) (taken ++ rest)
  | spaces : taken ≠ [] → (∀ c ∈ taken, isspace c = true) → Matches mask rest → Matches ('~' :: mask) (taken ++ rest)
  | escaped : Matches mask rest → Matches ('\\' :: c :: mask) (c :: rest)
  | plain : ¬Wildcard c → Matches mask rest → Matches (c :: mask) (c :: rest)

-- One part of a mask, read up to the first place where it can stop: a star and a word end where the
-- mask's next character stands, a word also before a space, and spaces are all taken.
inductive Move : Str → Str → Str → Str → Prop where
  | any : Move ('?' :: mask) (c :: rest) mask rest
  | star : (∀ c ∈ taken, some c ≠ mask.head?) → (∀ c ∈ rest.head?, some c = mask.head?) →
      Move ('*' :: mask) (taken ++ rest) mask rest
  | word : (∀ c ∈ taken, isspace c = false ∧ some c ≠ mask.head?) →
      (∀ c ∈ rest.head?, isspace c = true ∨ some c = mask.head?) → Move ('%' :: mask) (taken ++ rest) mask rest
  | spaces : taken ≠ [] → (∀ c ∈ taken, isspace c = true) → (∀ c ∈ rest.head?, isspace c = false) →
      Move ('~' :: mask) (taken ++ rest) mask rest
  | escaped : Move ('\\' :: c :: mask) (c :: rest) mask rest
  | plain : ¬Wildcard c → Move (c :: mask) (c :: rest) mask rest

-- A text is read to its end with the first stop of every part. Only a last star is read where no text is left.
inductive FirstStop : Str → Str → Prop where
  | nil : FirstStop [] []
  | last : FirstStop ['*'] []
  | move : text ≠ [] → Move mask text mask' rest → FirstStop mask' rest → FirstStop mask text

theorem move_matches (move : Move mask text mask' rest) (matches' : Matches mask' rest) : Matches mask text := by
  cases move with
  | any => exact .any matches'
  | star _ _ => exact .star _ matches'
  | word taken _ => exact .word (fun c member => (taken c member).1) matches'
  | spaces some' taken _ => exact .spaces some' taken matches'
  | escaped => exact .escaped matches'
  | plain ordinary => exact .plain ordinary matches'

theorem first_matches (stops : FirstStop mask text) : Matches mask text := by
  induction stops with
  | nil => exact .nil
  | last => exact .star [] .nil
  | move _ move _ ih => exact move_matches move ih

theorem move_shorter (move : Move mask text mask' rest) : mask'.length < mask.length := by
  cases move with
  | escaped => simp only [List.length_cons]; omega
  | any => simp
  | star _ _ => simp
  | word _ _ => simp
  | spaces _ _ _ => simp
  | plain _ => simp

theorem move_suffix (move : Move mask text mask' rest) : rest <:+ text := by
  cases move with
  | any => exact List.suffix_cons _ _
  | star _ _ => exact List.suffix_append _ _
  | word _ _ => exact List.suffix_append _ _
  | spaces _ _ _ => exact List.suffix_append _ _
  | escaped => exact List.suffix_cons _ _
  | plain _ => exact List.suffix_cons _ _

theorem star_more (matches' : Matches ('*' :: mask) rest) (suffix : rest <:+ text) : Matches ('*' :: mask) text := by
  obtain ⟨front,rfl⟩ := suffix
  generalize same : '*' :: mask = all at matches'
  cases matches' with
  | star taken after =>
      cases same
      rw [← List.append_assoc]
      exact .star _ after
  | plain ordinary _ =>
      cases same
      exact absurd (.inr (.inl rfl)) ordinary
  | nil => cases same
  | any _ => cases same
  | word _ _ => cases same
  | spaces _ _ _ => cases same
  | escaped _ => cases same

-- A loop over a text takes what it goes over, and stops at the end or at a character it does not go over.
theorem dropWhile_parts (goes : Char → Bool) (text : Str) : ∃ taken, text = taken ++ text.dropWhile goes ∧
    (∀ c ∈ taken, goes c = true) ∧ ∀ c ∈ (text.dropWhile goes).head?, goes c = false := by
  refine ⟨text.takeWhile goes,List.takeWhile_append_dropWhile.symm,fun c member => List.mem_takeWhile_imp member,?_⟩
  intro c first
  have halts := List.head?_dropWhile_not goes text
  rw [Option.mem_def.mp first] at halts
  simpa using halts

theorem star_move (mask text : Str) : Move ('*' :: mask) text mask (text.dropWhile (fun c => some c ≠ mask.head?)) := by
  obtain ⟨taken,parts,goes,halts⟩ := dropWhile_parts (fun c => some c ≠ mask.head?) text
  generalize text.dropWhile (fun c => some c ≠ mask.head?) = rest at parts halts
  rw [parts]
  exact .star (fun c member => by simpa using goes c member) (fun c first => by simpa using halts c first)

theorem word_move (mask text : Str) :
    Move ('%' :: mask) text mask (text.dropWhile (fun c => !isspace c && some c ≠ mask.head?)) := by
  obtain ⟨taken,parts,goes,halts⟩ := dropWhile_parts (fun c => !isspace c && some c ≠ mask.head?) text
  generalize text.dropWhile (fun c => !isspace c && some c ≠ mask.head?) = rest at parts halts
  rw [parts]
  refine .word ?_ ?_
  · intro c member
    simpa using goes c member
  · intro c first
    have stops := halts c first
    by_cases space : isspace c = true
    · exact .inl space
    · exact .inr (by simpa [space] using stops)

theorem spaces_move (mask rest : Str) (space : isspace c = true) :
    Move ('~' :: mask) (c :: rest) mask (rest.dropWhile isspace) := by
  obtain ⟨taken,parts,goes,halts⟩ := dropWhile_parts isspace rest
  generalize rest.dropWhile isspace = after at parts halts
  rw [parts,← List.cons_append]
  refine .spaces (by simp) ?_ halts
  intro d member
  rcases List.mem_cons.mp member with rfl | later
  · exact space
  · exact goes d later

theorem dropWhile_exact (goes : Char → Bool) {taken rest : Str} (over' : ∀ c ∈ taken, goes c = true)
    (halts : ∀ c ∈ rest.head?, goes c = false) : (taken ++ rest).dropWhile goes = rest := by
  rw [List.dropWhile_append_of_pos over']
  cases rest with
  | nil => rfl
  | cons c rest => rw [List.dropWhile_cons_of_neg (by simp [halts c rfl])]

-- One turn of troll_matchwilds where there is text left.
theorem troll_turn (h c : Char) (haystack needle : Str) : trollMatchwilds (h :: haystack) (c :: needle) =
    if c = '\\' then
      match needle with
      | [] => 1
      | d :: needle => if d = h then trollMatchwilds haystack needle else 1
    else if c = '?' then trollMatchwilds haystack needle
    else if c = '*' then trollMatchwilds ((h :: haystack).dropWhile (fun d => some d ≠ needle.head?)) needle
    else if c = '%' then trollMatchwilds ((h :: haystack).dropWhile (fun d => !isspace d && some d ≠ needle.head?)) needle
    else if c = '~' then if isspace h then trollMatchwilds (haystack.dropWhile isspace) needle else 1
    else if c = h then trollMatchwilds haystack needle else 1 := by
  cases needle with
  | nil => rw [trollMatchwilds]
  | cons d needle => rw [trollMatchwilds]

-- troll_matchwilds goes on behind every part it reads.
theorem troll_move (some' : text ≠ []) (move : Move mask text mask' rest) : trollMatchwilds text mask = trollMatchwilds rest mask' := by
  cases move with
  | any =>
      rw [troll_turn]
      simp
  | @star taken _ _ goes halts =>
      have stop := dropWhile_exact (fun c => decide (some c ≠ mask'.head?)) (by simpa using goes) (by simpa using halts)
      generalize taken ++ rest = text at some' stop
      cases text with
      | nil => exact absurd rfl some'
      | cons h haystack =>
          rw [troll_turn,stop]
          simp
  | @word taken _ _ goes halts =>
      have stop := dropWhile_exact (fun c => !isspace c && decide (some c ≠ mask'.head?)) (by simpa using goes) (by
        intro c first
        rcases halts c first with space | next
        · simp [space]
        · simp [next])
      generalize taken ++ rest = text at some' stop
      cases text with
      | nil => exact absurd rfl some'
      | cons h haystack =>
          rw [troll_turn,stop]
          simp
  | @spaces taken _ _ full spaces halts =>
      cases taken with
      | nil => exact absurd rfl full
      | cons h taken =>
          have stop := dropWhile_exact isspace (fun c member => spaces c (List.mem_cons_of_mem _ member)) halts
          rw [List.cons_append,troll_turn]
          simp [spaces h (by simp),stop]
  | escaped =>
      rw [troll_turn]
      simp
  | plain ordinary =>
      simp only [Wildcard,not_or] at ordinary
      rw [troll_turn]
      simp [ordinary]

theorem troll_first : trollMatchwilds text mask = 0 ↔ FirstStop mask text := by
  constructor
  · intro found
    fun_induction trollMatchwilds text mask with
    | case1 => exact .nil
    | case2 => cases found
    | case3 c needle last =>
        obtain ⟨rfl,rfl⟩ := last
        exact .last
    | case4 => cases found
    | case5 => cases found
    | case6 d haystack needle ih => exact .move (by simp) .escaped (ih found)
    | case7 => cases found
    | case8 h haystack needle _ ih => exact .move (by simp) .any (ih found)
    | case9 h haystack needle _ _ ih => exact .move (by simp) (star_move _ _) (ih found)
    | case10 h haystack needle _ _ _ ih => exact .move (by simp) (word_move _ _) (ih found)
    | case11 h haystack needle space _ _ _ _ ih => exact .move (by simp) (spaces_move _ _ space) (ih found)
    | case12 => cases found
    | case13 haystack c needle escape any star word spaces ih =>
        refine .move (by simp) (.plain ?_) (ih found)
        simp [Wildcard,escape,any,star,word,spaces]
    | case14 => cases found
  · intro stops
    induction stops with
    | nil => simp [trollMatchwilds]
    | last => simp [trollMatchwilds]
    | move some' move _ ih => exact (troll_move some' move).trans ih

-- The turns of matchwilds, one for each kind of part. After an escape nothing is special.
section
variable (h : Char) (haystack mask : Str) (last : Option (Option Str × Str))

theorem wild_any : wildStep ⟨some (h :: haystack),'?' :: mask,false,last⟩ = .next ⟨some haystack,mask,false,last⟩ := by
  simp [wildStep]

theorem wild_star {stop : Str} (stops : (h :: haystack).dropWhile (fun c => some c ≠ mask.head?) = stop) :
    wildStep ⟨some (h :: haystack),'*' :: mask,false,last⟩ =
      .next ⟨some stop,mask,false,some (if stop = [] then none else some stop.tail,'*' :: mask)⟩ := by
  subst stops
  simp [wildStep]

theorem wild_word {stop : Str} (stops : (h :: haystack).dropWhile (fun c => !isspace c && some c ≠ mask.head?) = stop) :
    wildStep ⟨some (h :: haystack),'%' :: mask,false,last⟩ = .next ⟨some stop,mask,false,last⟩ := by
  subst stops
  simp [wildStep]

theorem wild_spaces : wildStep ⟨some (h :: haystack),'~' :: mask,false,last⟩ =
    if isspace h then .next ⟨some (haystack.dropWhile isspace),mask,false,last⟩ else .done 1 := by
  simp [wildStep]

theorem wild_plain (ordinary : ¬Wildcard c) : wildStep ⟨some (h :: haystack),c :: mask,false,last⟩ =
    if c = h then .next ⟨some haystack,mask,false,last⟩ else Wild.back ⟨some (h :: haystack),c :: mask,false,last⟩ := by
  simp only [Wildcard,not_or] at ordinary
  by_cases same : c = h
  · simp [wildStep,ordinary,← same]
  · simp [wildStep,ordinary,same]

theorem wild_escaped : wildStep ⟨some (h :: haystack),'\\' :: c :: mask,false,last⟩ =
    if c = h then .next ⟨some haystack,mask,false,last⟩ else Wild.back ⟨some (h :: haystack),c :: mask,true,last⟩ := by
  by_cases same : c = h
  · simp [wildStep,← same]
  · simp [wildStep,same]

theorem wild_lone : wildStep ⟨some (h :: haystack),['\\'],false,last⟩ = Wild.back ⟨some (h :: haystack),[],true,last⟩ := by
  simp [wildStep]

theorem wild_again : wildStep ⟨some (h :: haystack),'*' :: mask,true,last⟩ =
    if '*' = h then .next ⟨some haystack,mask,false,last⟩ else Wild.back ⟨some (h :: haystack),'*' :: mask,true,last⟩ := by
  by_cases same : '*' = h
  · simp [wildStep,← same]
  · simp [wildStep,same]

end

-- matchwilds reads the same parts, and notes every star.
theorem wild_move (some' : text ≠ []) (move : Move mask text mask' rest) (last : Option (Option Str × Str)) :
    ∃ last', wildStep ⟨some text,mask,false,last⟩ = .next ⟨some rest,mask',false,last'⟩ := by
  cases move with
  | any => exact ⟨last,wild_any _ _ _ _⟩
  | @star taken _ _ goes halts =>
      have stop := dropWhile_exact (fun c => decide (some c ≠ mask'.head?)) (by simpa using goes) (by simpa using halts)
      generalize taken ++ rest = text at some' stop
      cases text with
      | nil => exact absurd rfl some'
      | cons h haystack => exact ⟨_,wild_star _ _ _ _ stop⟩
  | @word taken _ _ goes halts =>
      have stop := dropWhile_exact (fun c => !isspace c && decide (some c ≠ mask'.head?)) (by simpa using goes) (by
        intro c first
        rcases halts c first with space | next
        · simp [space]
        · simp [next])
      generalize taken ++ rest = text at some' stop
      cases text with
      | nil => exact absurd rfl some'
      | cons h haystack => exact ⟨last,wild_word _ _ _ _ stop⟩
  | @spaces taken _ _ full spaces halts =>
      cases taken with
      | nil => exact absurd rfl full
      | cons h taken =>
          have stop := dropWhile_exact isspace (fun c member => spaces c (List.mem_cons_of_mem _ member)) halts
          refine ⟨last,(wild_spaces h (taken ++ rest) _ _).trans ?_⟩
          rw [if_pos (spaces h (by simp)),stop]
  | escaped => exact ⟨last,(wild_escaped _ _ _ _).trans (if_pos rfl)⟩
  | plain ordinary => exact ⟨last,(wild_plain _ _ _ _ ordinary).trans (if_pos rfl)⟩

theorem first_ends (stops : FirstStop mask text) (last : Option (Option Str × Str)) : Ends wildStep ⟨some text,mask,false,last⟩ 0 := by
  induction stops generalizing last with
  | nil => exact ends_now rfl
  | last => exact ends_now rfl
  | move some' move _ ih =>
      obtain ⟨last',taken⟩ := wild_move some' move last
      exact ends_later taken (ih last')

-- What a turn of matchwilds does where there is text and mask left: a part is read, or the text does not
-- match, or the matcher goes back to the last star. An escape that was met on the way stays for the star.
structure Read (st later : Wild) (text : Str) : Prop where
  needle : later.needle.length < st.needle.length
  haystack : ∃ rest, later.haystack = some rest ∧ rest <:+ text ∧
    (Matches later.needle rest → Matches st.needle text) ∧ (later.last = st.last ∨ (∃ more, st.needle = '*' :: more) ∧
      later.last = some (if rest = [] then none else some rest.tail,st.needle))
  plain : later.escaped = false

theorem move_read (move : Move mask text mask' rest) (last : Option (Option Str × Str)) :
    Read ⟨some text,mask,false,last⟩ ⟨some rest,mask',false,last⟩ text :=
  ⟨move_shorter move,⟨rest,rfl,move_suffix move,move_matches move,.inl rfl⟩,rfl⟩

inductive Turned (st : Wild) (text : Str) : Outcome Wild Nat → Prop where
  | read : Read st later text → Turned st text (.next later)
  | fails : Turned st text (.done 1)
  | back : st.last = some (lasthay,lastneedle) → Turned st text (.next ⟨lasthay,lastneedle,escaped,none⟩)

theorem back_turned (needle : Str) (escaped : Bool) (same : st.last = last) :
    Turned st text (Wild.back ⟨some text,needle,escaped,last⟩) := by
  cases last with
  | none => exact .fails
  | some last => exact .back same

theorem wild_turned {h c : Char} {haystack mask : Str} {last : Option (Option Str × Str)} {escaped : Bool}
    (escapes : escaped = true → c = '*') : Turned ⟨some (h :: haystack),c :: mask,escaped,last⟩ (h :: haystack)
      (wildStep ⟨some (h :: haystack),c :: mask,escaped,last⟩) := by
  cases escaped with
  | true =>
      obtain rfl := escapes rfl
      rw [wild_again]
      split
      · refine .read ⟨by simp,⟨haystack,rfl,List.suffix_cons _ _,fun matches' => ?_,.inl rfl⟩,rfl⟩
        exact .star [h] matches'
      · exact back_turned _ _ rfl
  | false =>
      by_cases ordinary : Wildcard c
      · rcases ordinary with rfl | rfl | rfl | rfl | rfl
        · rw [wild_any]
          exact .read (move_read .any last)
        · rw [wild_star _ _ _ _ rfl]
          have move := star_move mask (h :: haystack)
          exact .read ⟨move_shorter move,⟨_,rfl,move_suffix move,move_matches move,.inr ⟨⟨mask,rfl⟩,rfl⟩⟩,rfl⟩
        · rw [wild_word _ _ _ _ rfl]
          exact .read (move_read (word_move _ _) last)
        · rw [wild_spaces]
          split
          · rename_i space
            exact .read (move_read (spaces_move _ _ space) last)
          · exact .fails
        · cases mask with
          | nil =>
              rw [wild_lone]
              exact back_turned _ _ rfl
          | cons d mask =>
              rw [wild_escaped]
              split
              · rename_i same
                subst same
                exact .read (move_read .escaped last)
              · exact back_turned _ _ rfl
      · rw [wild_plain _ _ _ _ ordinary]
        split
        · rename_i same
          subst same
          exact .read (move_read (.plain ordinary) last)
        · exact back_turned _ _ rfl

-- How often the matcher can still go back, and the mask that is left.
def Wild.rank (st : Wild) : Nat :=
  match st.last with
  | none => (st.haystack.getD []).length + 1
  | some (none,_) => 0
  | some (some stop,_) => stop.length + 2

def Wild.measure (mask : Str) (st : Wild) : Nat := st.rank * (mask.length + 2) + st.needle.length

theorem rank_none {st : Wild} (kept : st.last = none) (here : st.haystack = some text) : st.rank = text.length + 1 := by
  unfold Wild.rank
  rw [kept,here]
  rfl

theorem rank_end {st : Wild} (kept : st.last = some (none,lastneedle)) : st.rank = 0 := by
  unfold Wild.rank
  rw [kept]

theorem rank_stop {st : Wild} (kept : st.last = some (some stop,lastneedle)) : st.rank = stop.length + 2 := by
  unfold Wild.rank
  rw [kept]

-- The note of the last star: where no text was left there is none now, else the text left starts at most
-- one character before the noted place, and a match from there is one of the whole text.
def Noted (mask whole rest : Str) (last : Option (Option Str × Str)) : Prop :=
  ∀ lasthay lastneedle, last = some (lasthay,lastneedle) → lastneedle.length ≤ mask.length ∧ lastneedle.head? = some '*' ∧
    match lasthay with
    | none => rest = []
    | some stop => rest.length ≤ stop.length + 1 ∧ (Matches lastneedle stop → Matches mask whole)

-- What holds between the turns. Past the end of the text the matcher only comes where a star stopped at the
-- end, and from there it does not go back.
structure Wild.Sound (text mask : Str) (st : Wild) : Prop where
  escapes : st.escaped = true → st.needle.head? = some '*'
  here : ∃ rest, st.haystack = some rest ∧ (Matches st.needle rest → Matches mask text) ∧ Noted mask text rest st.last
  needle : st.needle.length ≤ mask.length

theorem noted_shorter (noted : Noted mask whole text last) (suffix : rest <:+ text) : Noted mask whole rest last := by
  intro lasthay lastneedle kept
  obtain ⟨bound,starred,stops⟩ := noted lasthay lastneedle kept
  refine ⟨bound,starred,?_⟩
  have fewer := suffix.length_le
  cases lasthay with
  | none =>
      simp only at stops
      rw [stops] at fewer
      exact List.eq_nil_of_length_eq_zero (by simpa using fewer)
  | some stop => exact ⟨Nat.le_trans fewer stops.1,stops.2⟩

theorem star_noted {needle rest text : Str} (bound : needle.length ≤ mask.length) (star : needle = '*' :: more)
    (found : Matches needle text → Matches mask whole) (suffix : rest <:+ text) :
    Noted mask whole rest (some (if rest = [] then none else some rest.tail,needle)) := by
  intro lasthay lastneedle kept
  cases kept
  refine ⟨bound,by rw [star]; rfl,?_⟩
  cases rest with
  | nil => rfl
  | cons c rest =>
      refine ⟨by simp,fun ends => found ?_⟩
      rw [star] at ends ⊢
      exact star_more ends ((List.suffix_cons c rest).trans suffix)

-- A note made now leaves no more stops than there were.
theorem rank_noted {st later : Wild} (here : st.haystack = some text) (noted : Noted mask whole text st.last) (suffix : rest <:+ text)
    (last : later.last = some (if rest = [] then none else some rest.tail,needle)) : later.rank ≤ st.rank := by
  cases rest with
  | nil =>
      rw [rank_end last]
      exact Nat.zero_le _
  | cons c rest =>
      have fewer := suffix.length_le
      rw [List.length_cons] at fewer
      rw [rank_stop last,List.tail_cons]
      cases kept : st.last with
      | none =>
          rw [rank_none kept here]
          omega
      | some note =>
          obtain ⟨lasthay,lastneedle⟩ := note
          have stops := (noted lasthay lastneedle kept).2.2
          cases lasthay with
          | none =>
              simp only at stops
              simp [stops] at fewer
          | some stop =>
              rw [rank_stop kept]
              have := stops.1
              omega

theorem rank_kept {st later : Wild} (here : st.haystack = some text) (there : later.haystack = some rest) (suffix : rest <:+ text)
    (same : later.last = st.last) : later.rank ≤ st.rank := by
  unfold Wild.rank
  rw [same,here,there]
  cases st.last with
  | none => simpa using suffix.length_le
  | some last =>
      obtain ⟨lasthay,lastneedle⟩ := last
      cases lasthay with
      | none => exact Nat.le_refl _
      | some stop => exact Nat.le_refl _

theorem read_sound {st later : Wild} {text mask whole : Str} (sound : st.Sound whole mask) (here : st.haystack = some text)
    (read : Read st later text) : later.Sound whole mask ∧ later.measure mask < st.measure mask := by
  obtain ⟨shorter,⟨rest,there,suffix,matches',last⟩,plain⟩ := read
  obtain ⟨-,⟨text',here',found,noted⟩,needle⟩ := sound
  obtain rfl : text = text' := Option.some.inj (here.symm.trans here')
  have ranks : later.rank ≤ st.rank ∧ Noted mask whole rest later.last := by
    rcases last with same | ⟨⟨more,star⟩,last⟩
    · rw [same]
      exact ⟨rank_kept here there suffix same,noted_shorter noted suffix⟩
    · rw [last]
      exact ⟨rank_noted here noted suffix last,star_noted needle star found suffix⟩
  refine ⟨⟨?_,⟨rest,there,fun ends => found (matches' ends),ranks.2⟩,by omega⟩,?_⟩
  · intro escaped
    rw [plain] at escaped
    cases escaped
  · have more := Nat.mul_le_mul_right (mask.length + 2) ranks.1
    unfold Wild.measure
    omega

theorem back_sound {st : Wild} {text mask whole : Str} (sound : st.Sound whole mask) (here : st.haystack = some text) (left : text ≠ [])
    (back : st.last = some (lasthay,lastneedle)) (escaped : Bool) :
    Wild.Sound whole mask ⟨lasthay,lastneedle,escaped,none⟩ ∧
      Wild.measure mask ⟨lasthay,lastneedle,escaped,none⟩ < st.measure mask := by
  obtain ⟨-,⟨text',here',-,noted⟩,-⟩ := sound
  obtain rfl : text = text' := Option.some.inj (here.symm.trans here')
  obtain ⟨bound,starred,stops⟩ := noted lasthay lastneedle back
  cases lasthay with
  | none => exact absurd stops left
  | some stop =>
      refine ⟨⟨fun _ => starred,⟨stop,rfl,stops.2,?_⟩,bound⟩,?_⟩
      · intro lasthay lastneedle kept
        cases kept
      · unfold Wild.measure
        rw [rank_stop back,rank_none rfl rfl]
        have split : (stop.length + 2) * (mask.length + 2) = (stop.length + 1) * (mask.length + 2) + (mask.length + 2) := by
          rw [← Nat.succ_mul]
        simp only
        omega

-- A turn ends the loop, with a match only where both are at their end, or leaves less to do.
theorem wild_progress {st : Wild} {mask whole : Str} (sound : st.Sound whole mask) :
    (∃ result, wildStep st = .done result ∧ (result = 0 → Matches mask whole)) ∨
      ∃ later, wildStep st = .next later ∧ later.Sound whole mask ∧ later.measure mask < st.measure mask := by
  have kept := sound
  obtain ⟨escapes,⟨text,here,found,-⟩,-⟩ := sound
  obtain ⟨haystack,needle,escaped,last⟩ := st
  simp only at here found escapes
  subst here
  cases needle with
  | nil =>
      refine .inl ⟨if text = [] then 0 else 1,rfl,fun zero => found ?_⟩
      cases text with
      | nil => exact .nil
      | cons h text => simp at zero
  | cons c needle =>
      cases text with
      | nil =>
          refine .inl ⟨_,rfl,fun zero => found ?_⟩
          split at zero
          · rename_i ends
            obtain ⟨rfl,rfl,-⟩ := ends
            exact .star [] .nil
          · cases zero
      | cons h haystack =>
          have turned := @wild_turned h c haystack needle last escaped (by
            intro escape
            simpa using escapes escape)
          generalize wildStep ⟨some (h :: haystack),c :: needle,escaped,last⟩ = outcome at turned
          cases turned with
          | read read => exact .inr ⟨_,rfl,read_sound kept rfl read⟩
          | fails => exact .inl ⟨1,rfl,by simp⟩
          | back back => exact .inr ⟨_,rfl,back_sound kept rfl (by simp) back _⟩

theorem start_sound (text mask : Str) : Wild.Sound text mask ⟨some text,mask,false,none⟩ := by
  refine ⟨fun escaped => ?_,⟨text,rfl,id,?_⟩,Nat.le_refl _⟩
  · cases escaped
  · intro lasthay lastneedle kept
    cases kept

-- matchwilds comes to an end on every text and mask, with the fuel the model gives it.
theorem wild_ends (text mask : Str) : ∃ result, Ends wildStep ⟨some text,mask,false,none⟩ result ∧
    matchwilds (some text) (some mask) = some result := by
  obtain ⟨result,runs⟩ := ends_within (Wild.Sound text mask) (Wild.measure mask) (fun st sound => by
    rcases wild_progress sound with ⟨result,taken,-⟩ | ⟨later,taken,progress⟩
    · exact .inl ⟨result,taken⟩
    · exact .inr ⟨later,taken,progress⟩) (start_sound text mask)
  have fuel : Wild.measure mask ⟨some text,mask,false,none⟩ < (text.length + 2) * (mask.length + 2) := by
    unfold Wild.measure
    rw [rank_none rfl rfl,Nat.succ_mul (text.length + 1)]
    simp only
    omega
  refine ⟨result,⟨_,fun fuel' enough => runs fuel' enough⟩,?_⟩
  unfold matchwilds
  simp only [runs _ fuel]

theorem wild_found (found : Ends wildStep ⟨some text,mask,false,none⟩ 0) : Matches mask text := by
  refine ends_keeps (Wild.Sound text mask) (fun result => result = 0 → Matches mask text) ?_ ?_ (start_sound text mask) found rfl
  · intro st later sound taken
    rcases wild_progress sound with ⟨result,ended,-⟩ | ⟨later',taken',kept,-⟩
    · rw [taken] at ended
      cases ended
    · rw [taken] at taken'
      cases taken'
      exact kept
  · intro st result sound taken
    rcases wild_progress sound with ⟨result',ended,shows⟩ | ⟨later',taken',-⟩
    · rw [taken] at ended
      cases ended
      exact shows
    · rw [taken] at taken'
      cases taken'

theorem troll_wild (found : trollMatchwilds text mask = 0) : matchwilds (some text) (some mask) = some 0 := by
  obtain ⟨result,ends,returns⟩ := wild_ends text mask
  rw [returns,ends_same (first_ends (troll_first.mp found) none) ends]

theorem wild_taken (found : matchwilds (some text) (some mask) = some 0) : Matches mask text := by
  obtain ⟨result,ends,returns⟩ := wild_ends text mask
  rw [returns] at found
  cases found
  exact wild_found ends

-- Neither matcher takes a text outside the language, and the second takes what the first does.
theorem wild_language (text mask : Str) : (trollMatchwilds text mask = 0 → matchwilds (some text) (some mask) = some 0) ∧
    (matchwilds (some text) (some mask) = some 0 → Matches mask text) := ⟨troll_wild,wild_taken⟩

end Trollbot

import Trollbot.WildLanguage

-- The masks of which the matchers miss no text.
namespace Trollbot
open Irc (isspace trollMatchwilds)

-- A character that stands for itself, and that a star or a word in front of it looks for.
inductive Sought : Char → Str → Str → Prop where
  | plain : ¬Wildcard c → Sought c (c :: rest) rest
  | escape : Sought '\\' ('\\' :: '\\' :: rest) rest

inductive Starred : Str → Prop where
  | star : Starred ('*' :: mask)
  | word : Starred mask → Starred ('%' :: mask)

-- Any text may stand in front of what is read here.
inductive Reopens : Str → Prop where
  | starred : Starred mask → Reopens mask
  | any : Reopens mask → Reopens ('?' :: mask)

-- Words, and a star at most, up to a space.
inductive Gap : Str → Prop where
  | space : Sought c mask rest → isspace c = true → Gap mask
  | star : Sought c mask rest → isspace c = true → Gap ('*' :: mask)
  | word : Gap mask → Gap ('%' :: mask)

-- What is read here needs no space at its front.
inductive Unspaced : Str → Prop where
  | nil : Unspaced []
  | last : Unspaced ['*']
  | escaped : isspace c = false → Unspaced ('\\' :: c :: mask)
  | plain : ¬Wildcard c → isspace c = false → Unspaced (c :: mask)
  | star : Sought c mask rest → isspace c = false → Unspaced ('*' :: mask)
  | word : Sought c mask rest → isspace c = false → Unspaced ('%' :: mask)

-- Every wildcard may stop at its first place: a star stands last, or before a character behind which any
-- text may come, a word before a space, or before a character behind which words may come, and behind
-- spaces there is no need of another one.
inductive Sure : Str → Prop where
  | nil : Sure []
  | last : Sure ['*']
  | any : Sure mask → Sure ('?' :: mask)
  | escaped : Sure mask → Sure ('\\' :: c :: mask)
  | plain : ¬Wildcard c → Sure mask → Sure (c :: mask)
  | spaces : Unspaced mask → Sure mask → Sure ('~' :: mask)
  | star : Sought c mask rest → Reopens rest → Sure mask → Sure ('*' :: mask)
  | word : Sought c mask rest → isspace c = false → Reopens rest ∨ rest.head? = some '%' → Sure mask → Sure ('%' :: mask)
  | gap : Gap mask → Sure mask → Sure ('%' :: mask)

def loneEscape : Str → Bool
  | [] => false
  | ['\\'] => true
  | '\\' :: _ :: mask => loneEscape mask
  | _ :: mask => loneEscape mask

def Finds (mask : Str) : Prop := ∀ text, Matches mask text → trollMatchwilds text mask = 0

-- The language, from the front of the mask.
section
variable {mask text : Str}

theorem matches_any : Matches ('?' :: mask) text ↔ ∃ c rest, text = c :: rest ∧ Matches mask rest := by
  constructor
  · intro inside
    cases inside with
    | any after => exact ⟨_,_,rfl,after⟩
    | plain ordinary _ => exact absurd (.inl rfl) ordinary
  · rintro ⟨c,rest,rfl,after⟩
    exact .any after

theorem matches_star : Matches ('*' :: mask) text ↔ ∃ taken rest, text = taken ++ rest ∧ Matches mask rest := by
  constructor
  · intro inside
    cases inside with
    | star taken after => exact ⟨taken,_,rfl,after⟩
    | plain ordinary _ => exact absurd (.inr (.inl rfl)) ordinary
  · rintro ⟨taken,rest,rfl,after⟩
    exact .star taken after

theorem matches_word : Matches ('%' :: mask) text ↔
    ∃ taken rest, text = taken ++ rest ∧ (∀ c ∈ taken, isspace c = false) ∧ Matches mask rest := by
  constructor
  · intro inside
    cases inside with
    | word clear after => exact ⟨_,_,rfl,clear,after⟩
    | plain ordinary _ => exact absurd (.inr (.inr (.inl rfl))) ordinary
  · rintro ⟨taken,rest,rfl,clear,after⟩
    exact .word clear after

theorem matches_spaces : Matches ('~' :: mask) text ↔
    ∃ taken rest, text = taken ++ rest ∧ taken ≠ [] ∧ (∀ c ∈ taken, isspace c = true) ∧ Matches mask rest := by
  constructor
  · intro inside
    cases inside with
    | spaces some' full after => exact ⟨_,_,rfl,some',full,after⟩
    | plain ordinary _ => exact absurd (.inr (.inr (.inr (.inl rfl)))) ordinary
  · rintro ⟨taken,rest,rfl,some',full,after⟩
    exact .spaces some' full after

theorem matches_escaped : Matches ('\\' :: c :: mask) text ↔ ∃ rest, text = c :: rest ∧ Matches mask rest := by
  constructor
  · intro inside
    cases inside with
    | escaped after => exact ⟨_,rfl,after⟩
    | plain ordinary _ => exact absurd (.inr (.inr (.inr (.inr rfl)))) ordinary
  · rintro ⟨rest,rfl,after⟩
    exact .escaped after

theorem matches_plain (ordinary : ¬Wildcard c) : Matches (c :: mask) text ↔ ∃ rest, text = c :: rest ∧ Matches mask rest := by
  constructor
  · intro inside
    cases inside with
    | plain _ after => exact ⟨_,rfl,after⟩
    | any _ => exact absurd (.inl rfl) ordinary
    | star _ _ => exact absurd (.inr (.inl rfl)) ordinary
    | word _ _ => exact absurd (.inr (.inr (.inl rfl))) ordinary
    | spaces _ _ _ => exact absurd (.inr (.inr (.inr (.inl rfl)))) ordinary
    | escaped _ => exact absurd (.inr (.inr (.inr (.inr rfl)))) ordinary
  · rintro ⟨rest,rfl,after⟩
    exact .plain ordinary after

theorem matches_sought (sought : Sought c mask rest) : Matches mask text ↔ ∃ after, text = c :: after ∧ Matches rest after := by
  cases sought with
  | plain ordinary => exact matches_plain ordinary
  | escape => exact matches_escaped

theorem sought_head (sought : Sought c mask rest) : mask.head? = some c := by
  cases sought <;> rfl

theorem sought_ordinary (sought : Sought c mask rest) : c ≠ '*' ∧ c ≠ '%' ∧ c ≠ '?' ∧ c ≠ '~' := by
  cases sought with
  | plain ordinary =>
      simp only [Wildcard,not_or] at ordinary
      exact ⟨ordinary.2.1,ordinary.2.2.1,ordinary.1,ordinary.2.2.2.1⟩
  | escape => decide

end

-- The turns of troll_matchwilds.
section
variable (h : Char) (haystack mask : Str)

theorem reads_any : trollMatchwilds (h :: haystack) ('?' :: mask) = trollMatchwilds haystack mask := by
  simp [troll_turn]

theorem reads_escaped (c : Char) : trollMatchwilds (h :: haystack) ('\\' :: c :: mask) =
    if c = h then trollMatchwilds haystack mask else 1 := by
  simp [troll_turn]

theorem reads_plain (ordinary : ¬Wildcard c) : trollMatchwilds (h :: haystack) (c :: mask) =
    if c = h then trollMatchwilds haystack mask else 1 := by
  simp only [Wildcard,not_or] at ordinary
  simp [troll_turn,ordinary]

theorem reads_sought (sought : Sought c mask rest) : trollMatchwilds (h :: haystack) mask =
    if c = h then trollMatchwilds haystack rest else 1 := by
  cases sought with
  | plain ordinary => exact reads_plain h haystack rest ordinary
  | escape => exact reads_escaped h haystack rest '\\'

theorem reads_spaces : trollMatchwilds (h :: haystack) ('~' :: mask) =
    if isspace h then trollMatchwilds (haystack.dropWhile isspace) mask else 1 := by
  simp [troll_turn]

end

def starStop (mask text : Str) : Str := text.dropWhile (fun d => some d ≠ mask.head?)
def wordStop (mask text : Str) : Str := text.dropWhile (fun d => !isspace d && some d ≠ mask.head?)

theorem reads_star (mask : Str) (some' : text ≠ []) : trollMatchwilds text ('*' :: mask) = trollMatchwilds (starStop mask text) mask := by
  cases text with
  | nil => exact absurd rfl some'
  | cons h haystack => simp [troll_turn,starStop]

theorem reads_word (mask : Str) (some' : text ≠ []) : trollMatchwilds text ('%' :: mask) = trollMatchwilds (wordStop mask text) mask := by
  cases text with
  | nil => exact absurd rfl some'
  | cons h haystack => simp [troll_turn,wordStop]

theorem star_end (found : trollMatchwilds [] ('*' :: mask) = 0) : mask = [] := by
  unfold trollMatchwilds at found
  by_contra more
  simp [more] at found

theorem word_end : trollMatchwilds [] ('%' :: mask) = 1 := by
  simp [trollMatchwilds]

theorem star_here (first : mask.head? = some c) (text : Str) : trollMatchwilds (c :: text) ('*' :: mask) = trollMatchwilds (c :: text) mask := by
  rw [reads_star _ (by simp),starStop,List.dropWhile_cons_of_neg (by simp [first])]

theorem word_here (first : isspace c = true ∨ mask.head? = some c) (text : Str) :
    trollMatchwilds (c :: text) ('%' :: mask) = trollMatchwilds (c :: text) mask := by
  rw [reads_word _ (by simp),wordStop,List.dropWhile_cons_of_neg]
  rcases first with space | same
  · simp [space]
  · simp [same]

theorem found_inside (found : trollMatchwilds text mask = 0) : Matches mask text := first_matches (troll_first.mp found)

-- A loop that stops at a character stops there or at one of the same before it.
theorem stop_before (goes : Char → Bool) (halts : goes c = false) {taken : Str} (only : ∀ d ∈ taken, goes d = false → d = c) (after : Str) :
    ∃ more, (taken ++ c :: after).dropWhile goes = c :: (more ++ after) ∧ ∀ d ∈ more, d ∈ taken ∨ d = c := by
  induction taken with
  | nil => exact ⟨[],by rw [List.nil_append,List.dropWhile_cons_of_neg (by simp [halts])]; rfl,by simp⟩
  | cons d taken ih =>
      cases here : goes d with
      | true =>
          obtain ⟨more,stops,known⟩ := ih (fun e member => only e (List.mem_cons_of_mem _ member))
          refine ⟨more,by rw [List.cons_append,List.dropWhile_cons_of_pos here,stops],?_⟩
          intro e member
          rcases known e member with early | same
          · exact .inl (List.mem_cons_of_mem _ early)
          · exact .inr same
      | false =>
          obtain rfl := only d (by simp) here
          refine ⟨taken ++ [d],by simp [here],?_⟩
          intro e member
          rcases List.mem_append.mp member with early | last
          · exact .inl (List.mem_cons_of_mem _ early)
          · exact .inr (by simpa using last)

theorem starred_more (starred : Starred mask) (inside : Matches mask text) (front : Str) : Matches mask (front ++ text) := by
  induction starred generalizing text front with
  | star => exact star_more inside (List.suffix_append front text)
  | word _ ih =>
      obtain ⟨taken,rest,rfl,-,after⟩ := matches_word.mp inside
      rw [← List.append_assoc]
      exact matches_word.mpr ⟨[],_,rfl,by simp,ih after (front ++ taken)⟩

theorem reopens_more (reopens : Reopens mask) (inside : Matches mask text) (front : Str) : Matches mask (front ++ text) := by
  induction reopens generalizing text front with
  | starred starred => exact starred_more starred inside front
  | any _ ih =>
      obtain ⟨c,rest,rfl,after⟩ := matches_any.mp inside
      cases front with
      | nil => exact .any after
      | cons d front =>
          rw [List.cons_append,show front ++ c :: rest = (front ++ [c]) ++ rest by simp]
          exact .any (ih after (front ++ [c]))

theorem word_more (word : mask.head? = some '%') (inside : Matches mask text) {front : Str} (clear : ∀ c ∈ front, isspace c = false) :
    Matches mask (front ++ text) := by
  obtain ⟨mask,rfl⟩ := List.head?_eq_some_iff.mp word
  obtain ⟨taken,rest,rfl,clear',after⟩ := matches_word.mp inside
  rw [← List.append_assoc]
  refine matches_word.mpr ⟨front ++ taken,rest,rfl,?_,after⟩
  intro c member
  rcases List.mem_append.mp member with early | late
  · exact clear c early
  · exact clear' c late

theorem finds_star (sought : Sought c mask rest) (reopens : Reopens rest) (finds : Finds mask) : Finds ('*' :: mask) := by
  intro text inside
  obtain ⟨taken,_,rfl,left⟩ := matches_star.mp inside
  obtain ⟨after,rfl,behind⟩ := (matches_sought sought).mp left
  have first := sought_head sought
  obtain ⟨more,stops,-⟩ := stop_before (c := c) (fun d => decide (some d ≠ mask.head?)) (by simp [first])
    (fun d (_ : d ∈ taken) => by simp [first]) after
  rw [reads_star _ (by simp),starStop,stops]
  exact finds _ ((matches_sought sought).mpr ⟨_,rfl,reopens_more reopens behind more⟩)

theorem finds_word (sought : Sought c mask rest) (word : isspace c = false) (reenters : Reopens rest ∨ rest.head? = some '%')
    (finds : Finds mask) : Finds ('%' :: mask) := by
  intro text inside
  obtain ⟨taken,_,rfl,clear,left⟩ := matches_word.mp inside
  obtain ⟨after,rfl,behind⟩ := (matches_sought sought).mp left
  have first := sought_head sought
  obtain ⟨more,stops,known⟩ := stop_before (c := c) (fun d => !isspace d && decide (some d ≠ mask.head?)) (by simp [first])
    (fun d (member : d ∈ taken) => by simp [clear d member,first]) after
  rw [reads_word _ (by simp),wordStop,stops]
  refine finds _ ((matches_sought sought).mpr ⟨_,rfl,?_⟩)
  rcases reenters with reopens | again
  · exact reopens_more reopens behind more
  · refine word_more again behind ?_
    intro d member
    rcases known d member with early | rfl
    · exact clear d early
    · exact word

-- Where words end at a space, only what is from there on matters.
section
variable {front : Str} (clear : ∀ c ∈ front, isspace c = false) (space : isspace s = true)
include clear

theorem clear_apart (member : c ∈ front) (space : isspace d = true) : c ≠ d := by
  rintro rfl
  rw [clear c member] at space
  cases space

include space

theorem wordStop_front (mask rest : Str) : ∃ left, wordStop mask (front ++ s :: rest) = left ++ s :: rest ∧ (∀ c ∈ left, c ∈ front) ∧
    (left = [] ∨ left.head? = mask.head?) := by
  unfold wordStop
  induction front with
  | nil => exact ⟨[],by rw [List.nil_append,List.dropWhile_cons_of_neg (by simp [space])],by simp,.inl rfl⟩
  | cons c front ih =>
      by_cases here : some c = mask.head?
      · exact ⟨c :: front,by rw [List.cons_append,List.dropWhile_cons_of_neg (by simp [here])],fun d member => member,.inr here⟩
      · obtain ⟨left,stops,known,first⟩ := ih (fun d member => clear d (List.mem_cons_of_mem _ member))
        refine ⟨left,?_,fun d member => List.mem_cons_of_mem _ (known d member),first⟩
        rw [List.cons_append,List.dropWhile_cons_of_pos (by simp [clear c (by simp),here]),stops]

theorem word_after (rest : Str) (later : ∀ left : Str, (∀ c ∈ left, isspace c = false) → left = [] ∨ left.head? = mask.head? →
    trollMatchwilds (left ++ s :: rest) mask = trollMatchwilds (s :: rest) mask) :
    trollMatchwilds (front ++ s :: rest) ('%' :: mask) = trollMatchwilds (s :: rest) mask := by
  obtain ⟨left,stops,known,first⟩ := wordStop_front clear space mask rest
  rw [reads_word _ (by simp),stops]
  exact later left (fun c member => clear c (known c member)) first

omit clear in
theorem gap_after (gap : Gap mask) (rest : Str) (clear : ∀ c ∈ front, isspace c = false) (first : front = [] ∨ front.head? = mask.head?) :
    trollMatchwilds (front ++ s :: rest) mask = trollMatchwilds (s :: rest) mask := by
  induction gap generalizing front with
  | space sought space' =>
      rcases first with rfl | first
      · rfl
      · rw [sought_head sought] at first
        obtain ⟨front,rfl⟩ := List.head?_eq_some_iff.mp first
        exact absurd rfl (clear_apart clear (by simp) space')
  | @star c mask _ sought space' =>
      rw [reads_star _ (by simp),reads_star _ (by simp),starStop,starStop,List.dropWhile_append_of_pos]
      intro d member
      simpa [sought_head sought] using clear_apart clear member space'
  | word _ ih => exact (word_after clear space rest (fun left clear first => ih clear first)).trans (word_here (.inl space) rest).symm

theorem gap_skips (gap : Gap mask) (rest : Str) : trollMatchwilds (front ++ s :: rest) ('%' :: mask) = trollMatchwilds (s :: rest) mask :=
  word_after clear space rest (fun _ => gap_after space gap rest)

end

theorem first_space (member : c ∈ text) (space : isspace c = true) :
    ∃ front s rest, text = front ++ s :: rest ∧ (∀ c ∈ front, isspace c = false) ∧ isspace s = true := by
  obtain ⟨front,parts,clear,halts⟩ := dropWhile_parts (fun c => !isspace c) text
  cases left : text.dropWhile (fun c => !isspace c) with
  | nil =>
      rw [left,List.append_nil] at parts
      rw [parts] at member
      have word := clear c member
      rw [space] at word
      cases word
  | cons s rest =>
      rw [left] at parts halts
      exact ⟨front,s,rest,parts,by simpa using clear,by simpa using halts⟩

-- A text that is read there has a space, and is read from the first one.
theorem gap_reads (gap : Gap mask) (inside : Matches mask text) : ∃ front s rest, text = front ++ s :: rest ∧
    (∀ c ∈ front, isspace c = false) ∧ isspace s = true ∧ trollMatchwilds text mask = trollMatchwilds (s :: rest) mask := by
  induction gap generalizing text with
  | space sought space =>
      obtain ⟨rest,rfl,-⟩ := (matches_sought sought).mp inside
      exact ⟨[],_,rest,rfl,by simp,space,rfl⟩
  | @star c _ _ sought space =>
      obtain ⟨taken,_,rfl,left⟩ := matches_star.mp inside
      obtain ⟨after,rfl,-⟩ := (matches_sought sought).mp left
      obtain ⟨front,s,rest,parts,clear,first⟩ := first_space (show c ∈ taken ++ c :: after by simp) space
      refine ⟨front,s,rest,parts,clear,first,?_⟩
      rw [parts,reads_star _ (by simp),reads_star _ (by simp),starStop,starStop,List.dropWhile_append_of_pos]
      intro d member
      simpa [sought_head sought] using clear_apart clear member space
  | word gap ih =>
      obtain ⟨taken,_,rfl,clear,left⟩ := matches_word.mp inside
      obtain ⟨front,s,rest,rfl,clear',space,-⟩ := ih left
      have both : ∀ c ∈ taken ++ front, isspace c = false := by
        intro c member
        rcases List.mem_append.mp member with early | late
        · exact clear c early
        · exact clear' c late
      refine ⟨taken ++ front,s,rest,by simp,both,space,?_⟩
      rw [← List.append_assoc,gap_skips both space gap,word_here (.inl space)]

theorem finds_gap (gap : Gap mask) : Finds ('%' :: mask) ↔ Finds mask := by
  constructor
  · intro finds text inside
    obtain ⟨front,s,rest,rfl,clear,space,reads⟩ := gap_reads gap inside
    rw [reads,← gap_skips clear space gap]
    exact finds _ (matches_word.mpr ⟨[],_,rfl,by simp,inside⟩)
  · intro finds text inside
    obtain ⟨taken,_,rfl,clear,left⟩ := matches_word.mp inside
    obtain ⟨front,s,rest,rfl,clear',space,reads⟩ := gap_reads gap left
    have both : ∀ c ∈ taken ++ front, isspace c = false := by
      intro c member
      rcases List.mem_append.mp member with early | late
      · exact clear c early
      · exact clear' c late
    rw [← List.append_assoc,gap_skips both space gap,← reads]
    exact finds _ left

theorem dropWhile_head (goes : Char → Bool) {text : Str} (halts : ∀ c ∈ text.head?, goes c = false) : text.dropWhile goes = text := by
  cases text with
  | nil => rfl
  | cons c text => exact List.dropWhile_cons_of_neg (by simp [halts c rfl])

-- The front of such a text may lose its spaces.
theorem unspaced_stripped (unspaced : Unspaced mask) (inside : Matches mask text) : Matches mask (text.dropWhile isspace) := by
  cases unspaced with
  | nil =>
      cases inside
      exact .nil
  | last => exact matches_star.mpr ⟨_,[],(List.append_nil _).symm,.nil⟩
  | escaped word =>
      obtain ⟨rest,rfl,-⟩ := matches_escaped.mp inside
      rwa [dropWhile_head isspace (by simpa using word)]
  | plain ordinary word =>
      obtain ⟨rest,rfl,-⟩ := (matches_plain ordinary).mp inside
      rwa [dropWhile_head isspace (by simpa using word)]
  | star sought word =>
      obtain ⟨taken,_,rfl,left⟩ := matches_star.mp inside
      obtain ⟨after,rfl,-⟩ := (matches_sought sought).mp left
      rw [List.dropWhile_append]
      split
      · rw [dropWhile_head isspace (by simpa using word)]
        exact matches_star.mpr ⟨[],_,rfl,left⟩
      · exact matches_star.mpr ⟨_,_,rfl,left⟩
  | word sought word =>
      obtain ⟨taken,_,rfl,clear,left⟩ := matches_word.mp inside
      obtain ⟨after,rfl,-⟩ := (matches_sought sought).mp left
      rw [dropWhile_head isspace]
      · exact inside
      · cases taken with
        | nil => simpa using word
        | cons d taken => simpa using clear d (by simp)

theorem finds_spaces (unspaced : Unspaced mask) (finds : Finds mask) : Finds ('~' :: mask) := by
  intro text inside
  obtain ⟨taken,rest,rfl,some',full,left⟩ := matches_spaces.mp inside
  cases taken with
  | nil => exact absurd rfl some'
  | cons s taken =>
      rw [List.cons_append,reads_spaces,if_pos (full s (by simp)),List.dropWhile_append_of_pos (fun c member => full c (by simp [member]))]
      exact finds _ (unspaced_stripped unspaced left)

theorem sure_finds (sure : Sure mask) : Finds mask := by
  induction sure with
  | nil =>
      intro text inside
      cases inside
      simp [trollMatchwilds]
  | last =>
      intro text inside
      cases text with
      | nil => simp [trollMatchwilds]
      | cons c text =>
          rw [reads_star _ (by simp),starStop]
          have all : (c :: text).dropWhile (fun d => decide (some d ≠ ([] : Str).head?)) = [] := by simp
          rw [all]
          simp [trollMatchwilds]
  | any _ ih =>
      intro text inside
      obtain ⟨c,rest,rfl,left⟩ := matches_any.mp inside
      rw [reads_any]
      exact ih rest left
  | escaped _ ih =>
      intro text inside
      obtain ⟨rest,rfl,left⟩ := matches_escaped.mp inside
      rw [reads_escaped,if_pos rfl]
      exact ih rest left
  | plain ordinary _ ih =>
      intro text inside
      obtain ⟨rest,rfl,left⟩ := (matches_plain ordinary).mp inside
      rw [reads_plain _ _ _ ordinary,if_pos rfl]
      exact ih rest left
  | spaces unspaced _ ih => exact finds_spaces unspaced ih
  | star sought reopens _ ih => exact finds_star sought reopens ih
  | word sought word more _ ih => exact finds_word sought word more ih
  | gap gap _ ih => exact (finds_gap gap).mpr ih

-- A shortest text of the language of a mask.
inductive Shortest : Str → Str → Prop where
  | nil : Shortest [] []
  | any : Shortest mask text → Shortest ('?' :: mask) ('a' :: text)
  | star : Shortest mask text → Shortest ('*' :: mask) text
  | word : Shortest mask text → Shortest ('%' :: mask) text
  | spaces : Shortest mask text → Shortest ('~' :: mask) (' ' :: text)
  | escaped : Shortest mask text → Shortest ('\\' :: c :: mask) (c :: text)
  | plain : ¬Wildcard c → Shortest mask text → Shortest (c :: mask) (c :: text)

theorem shortest_inside (shortest : Shortest mask text) : Matches mask text := by
  induction shortest with
  | nil => exact .nil
  | any _ ih => exact .any ih
  | star _ ih => exact matches_star.mpr ⟨[],_,rfl,ih⟩
  | word _ ih => exact matches_word.mpr ⟨[],_,rfl,by simp,ih⟩
  | spaces _ ih => exact matches_spaces.mpr ⟨[' '],_,rfl,by simp,by decide,ih⟩
  | escaped _ ih => exact .escaped ih
  | plain ordinary _ ih => exact .plain ordinary ih

theorem shortest_least (shortest : Shortest mask text) (inside : Matches mask other) : text.length ≤ other.length := by
  induction shortest generalizing other with
  | nil => exact Nat.zero_le _
  | any _ ih =>
      obtain ⟨c,rest,rfl,left⟩ := matches_any.mp inside
      exact Nat.succ_le_succ (ih left)
  | star _ ih =>
      obtain ⟨taken,rest,rfl,left⟩ := matches_star.mp inside
      have least := ih left
      rw [List.length_append]
      omega
  | word _ ih =>
      obtain ⟨taken,rest,rfl,-,left⟩ := matches_word.mp inside
      have least := ih left
      rw [List.length_append]
      omega
  | spaces _ ih =>
      obtain ⟨taken,rest,rfl,some',-,left⟩ := matches_spaces.mp inside
      have least := ih left
      have positive := List.length_pos_iff.mpr some'
      rw [List.length_append,List.length_cons]
      omega
  | escaped _ ih =>
      obtain ⟨rest,rfl,left⟩ := matches_escaped.mp inside
      exact Nat.succ_le_succ (ih left)
  | plain ordinary _ ih =>
      obtain ⟨rest,rfl,left⟩ := (matches_plain ordinary).mp inside
      exact Nat.succ_le_succ (ih left)

theorem shorter_missed (shortest : Shortest mask text) (shorter : other.length < text.length) : trollMatchwilds other mask ≠ 0 := by
  intro found
  have least := shortest_least shortest (found_inside found)
  omega

theorem stop_shorter (goes : Char → Bool) (passes : goes c = true) (text : Str) : ((c :: text).dropWhile goes).length < (c :: text).length := by
  rw [List.dropWhile_cons_of_pos passes,List.length_cons]
  exact Nat.lt_succ_of_le (List.length_dropWhile_le goes text)

-- A wildcard that takes anything of a shortest text leaves too little.
theorem star_takes_none (shortest : Shortest mask (c :: text)) (found : trollMatchwilds (c :: text) ('*' :: mask) = 0) :
    mask.head? = some c := by
  by_contra apart
  rw [reads_star _ (by simp)] at found
  refine shorter_missed shortest (stop_shorter _ ?_ text) found
  exact decide_eq_true (Ne.symm apart)

theorem word_takes_none (shortest : Shortest mask (c :: text)) (found : trollMatchwilds (c :: text) ('%' :: mask) = 0) :
    isspace c = true ∨ mask.head? = some c := by
  by_contra apart
  rw [not_or] at apart
  rw [reads_word _ (by simp)] at found
  refine shorter_missed shortest (stop_shorter _ ?_ text) found
  simp [apart.1,Ne.symm apart.2]

-- Words up to spaces, or up to a space that is written with an escape.
inductive Blocked : Str → Prop where
  | spaces : Blocked ('~' :: mask)
  | escaped : isspace c = true → Blocked ('\\' :: c :: mask)
  | word : Blocked mask → Blocked ('%' :: mask)

theorem sought_shortest (sought : Sought c mask rest) (shortest : Shortest mask text) : ∃ after, text = c :: after := by
  obtain ⟨after,same,-⟩ := (matches_sought sought).mp (shortest_inside shortest)
  exact ⟨after,same⟩

theorem gap_shortest (gap : Gap mask) (shortest : Shortest mask text) : ∃ s after, text = s :: after ∧ isspace s = true := by
  induction gap generalizing text with
  | space sought space =>
      obtain ⟨after,same⟩ := sought_shortest sought shortest
      exact ⟨_,after,same,space⟩
  | star sought space =>
      cases shortest with
      | star shortest =>
          obtain ⟨after,same⟩ := sought_shortest sought shortest
          exact ⟨_,after,same,space⟩
      | plain ordinary _ => exact absurd (.inr (.inl rfl)) ordinary
  | word _ ih =>
      cases shortest with
      | word shortest => exact ih shortest
      | plain ordinary _ => exact absurd (.inr (.inr (.inl rfl))) ordinary

theorem blocked_shortest (blocked : Blocked mask) (shortest : Shortest mask text) : ∃ s after, text = s :: after ∧ isspace s = true := by
  induction blocked generalizing text with
  | spaces =>
      cases shortest with
      | spaces _ => exact ⟨' ',_,rfl,by decide⟩
      | plain ordinary _ => exact absurd (.inr (.inr (.inr (.inl rfl)))) ordinary
  | escaped space =>
      cases shortest with
      | escaped _ => exact ⟨_,_,rfl,space⟩
      | plain ordinary _ => exact absurd (.inr (.inr (.inr (.inr rfl)))) ordinary
  | word _ ih =>
      cases shortest with
      | word shortest => exact ih shortest
      | plain ordinary _ => exact absurd (.inr (.inr (.inl rfl))) ordinary

-- What has to stand behind a star and behind a word, as far as a shortest text shows it.
theorem stops_first (shortest : Shortest mask text) :
    (trollMatchwilds text ('*' :: mask) = 0 → mask = [] ∨ ∃ c rest, Sought c mask rest) ∧
    (trollMatchwilds text ('%' :: mask) = 0 → (∃ c rest, Sought c mask rest ∧ isspace c = false) ∨ Gap mask ∨ Blocked mask) := by
  induction shortest with
  | nil => exact ⟨fun _ => .inl rfl,fun found => absurd found (by simp [word_end])⟩
  | any shortest _ =>
      refine ⟨fun found => ?_,fun found => ?_⟩
      · have first := star_takes_none (.any shortest) found
        simp at first
      · have first := word_takes_none (.any shortest) found
        simp [isspace] at first
  | spaces shortest _ =>
      refine ⟨fun found => ?_,fun _ => .inr (.inr .spaces)⟩
      have first := star_takes_none (.spaces shortest) found
      simp at first
  | @escaped _ _ c shortest _ =>
      refine ⟨fun found => ?_,fun found => ?_⟩
      · have first := star_takes_none (.escaped shortest) found
        obtain rfl : '\\' = c := by simpa using first
        exact .inr ⟨_,_,.escape⟩
      · rcases word_takes_none (.escaped shortest) found with space | first
        · exact .inr (.inr (.escaped space))
        · obtain rfl : '\\' = c := by simpa using first
          exact .inl ⟨_,_,.escape,by decide⟩
  | @plain c _ _ ordinary shortest _ =>
      refine ⟨fun _ => .inr ⟨_,_,.plain ordinary⟩,fun _ => ?_⟩
      cases space : isspace c with
      | true => exact .inr (.inl (.space (.plain ordinary) space))
      | false => exact .inl ⟨c,_,.plain ordinary,space⟩
  | @star mask text shortest ih =>
      cases text with
      | nil => exact ⟨fun found => absurd (star_end found) (by simp),fun found => absurd found (by simp [word_end])⟩
      | cons c text =>
          -- what stands behind the second star stands there at once
          have behind : trollMatchwilds (c :: text) ('*' :: mask) = 0 → ∃ rest, Sought c mask rest := by
            intro found
            rcases ih.1 found with rfl | ⟨d,rest,sought⟩
            · cases shortest
            · obtain ⟨after,same⟩ := sought_shortest sought shortest
              cases same
              exact ⟨rest,sought⟩
          have apart : c = '*' → trollMatchwilds (c :: text) ('*' :: mask) = 0 → False := by
            rintro rfl found
            obtain ⟨rest,sought⟩ := behind found
            exact (sought_ordinary sought).1 rfl
          refine ⟨fun found => ?_,fun found => ?_⟩
          · have first := star_takes_none (.star shortest) found
            rw [star_here first] at found
            exact (apart (by simpa using first.symm) found).elim
          · have first := word_takes_none (.star shortest) found
            rw [word_here first] at found
            rcases first with space | first
            · obtain ⟨rest,sought⟩ := behind found
              exact .inr (.inl (.star sought space))
            · exact (apart (by simpa using first.symm) found).elim
  | @word mask text shortest ih =>
      cases text with
      | nil => exact ⟨fun found => absurd (star_end found) (by simp),fun found => absurd found (by simp [word_end])⟩
      | cons c text =>
          have behind : trollMatchwilds (c :: text) ('%' :: mask) = 0 → (∃ rest, Sought c mask rest) ∨ (Gap mask ∨ Blocked mask) ∧ isspace c = true := by
            intro found
            rcases ih.2 found with ⟨d,rest,sought,-⟩ | gap | blocked
            · obtain ⟨after,same⟩ := sought_shortest sought shortest
              cases same
              exact .inl ⟨rest,sought⟩
            · obtain ⟨s,after,same,space⟩ := gap_shortest gap shortest
              cases same
              exact .inr ⟨.inl gap,space⟩
            · obtain ⟨s,after,same,space⟩ := blocked_shortest blocked shortest
              cases same
              exact .inr ⟨.inr blocked,space⟩
          have apart : c = '%' → trollMatchwilds (c :: text) ('%' :: mask) = 0 → False := by
            rintro rfl found
            rcases behind found with ⟨rest,sought⟩ | ⟨-,space⟩
            · exact (sought_ordinary sought).2.1 rfl
            · simp [isspace] at space
          refine ⟨fun found => ?_,fun found => ?_⟩
          · have first := star_takes_none (.word shortest) found
            rw [star_here first] at found
            exact (apart (by simpa using first.symm) found).elim
          · have first := word_takes_none (.word shortest) found
            rw [word_here first] at found
            rcases first with space | first
            · rcases behind found with ⟨rest,sought⟩ | ⟨gap | blocked,-⟩
              · exact .inr (.inl (.word (.space sought space)))
              · exact .inr (.inl (.word gap))
              · exact .inr (.inr (.word blocked))
            · exact (apart (by simpa using first.symm) found).elim

theorem star_first (finds : Finds ('*' :: mask)) (shortest : Shortest mask text) : mask = [] ∨ ∃ c rest, Sought c mask rest :=
  (stops_first shortest).1 (finds _ (shortest_inside (.star shortest)))

-- A text that such words stop too early in.
theorem blocked_missed (blocked : Blocked mask) (shortest : Shortest mask text) :
    ∃ rest, Matches ('%' :: mask) ('%' :: rest) ∧ trollMatchwilds ('%' :: rest) ('%' :: mask) ≠ 0 := by
  induction blocked generalizing text with
  | @spaces mask =>
      cases shortest with
      | @spaces _ text shortest =>
          refine ⟨'~' :: ' ' :: text,matches_word.mpr ⟨['%','~'],_,rfl,by decide,shortest_inside (.spaces shortest)⟩,?_⟩
          rw [reads_word _ (by simp),wordStop]
          simp [isspace,reads_spaces]
      | plain ordinary _ => exact absurd (.inr (.inr (.inr (.inl rfl)))) ordinary
  | @escaped c mask space =>
      cases shortest with
      | @escaped _ text _ shortest =>
          refine ⟨'\\' :: c :: text,matches_word.mpr ⟨['%','\\'],_,rfl,by decide,shortest_inside (.escaped shortest)⟩,?_⟩
          have apart : c ≠ '\\' := by
            rintro rfl
            simp [isspace] at space
          rw [reads_word _ (by simp),wordStop]
          simp [isspace,reads_escaped,apart]
      | plain ordinary _ => exact absurd (.inr (.inr (.inr (.inr rfl)))) ordinary
  | word _ ih =>
      cases shortest with
      | word shortest =>
          obtain ⟨rest,inside,missed⟩ := ih shortest
          refine ⟨rest,matches_word.mpr ⟨[],_,rfl,by simp,inside⟩,?_⟩
          rwa [word_here (.inr rfl)]
      | plain ordinary _ => exact absurd (.inr (.inr (.inl rfl))) ordinary

theorem word_first (finds : Finds ('%' :: mask)) (shortest : Shortest mask text) :
    (∃ c rest, Sought c mask rest ∧ isspace c = false) ∨ Gap mask := by
  rcases (stops_first shortest).2 (finds _ (shortest_inside (.word shortest))) with sought | gap | blocked
  · exact .inl sought
  · exact .inr gap
  · obtain ⟨rest,inside,missed⟩ := blocked_missed blocked shortest
    exact absurd (finds _ inside) missed

theorem other_letter (c : Char) : ∃ d, d ≠ c ∧ isspace d = false := by
  by_cases same : c = 'a'
  · exact ⟨'b',by rw [same]; decide,by decide⟩
  · exact ⟨'a',Ne.symm same,by decide⟩

theorem other_space (c : Char) : ∃ d, d ≠ c ∧ isspace d = true := by
  by_cases same : c = ' '
  · exact ⟨'\t',by rw [same]; decide,by decide⟩
  · exact ⟨' ',Ne.symm same,by decide⟩

theorem word_space (space : isspace s = true) (inside : Matches ('%' :: mask) (s :: text)) : Matches mask (s :: text) := by
  obtain ⟨taken,rest,parts,clear,left⟩ := matches_word.mp inside
  cases taken with
  | nil => rwa [parts]
  | cons d taken =>
      cases parts
      exact absurd rfl (clear_apart clear (by simp) space)

theorem word_again (inside : Matches ('%' :: '%' :: mask) text) : Matches ('%' :: mask) text := by
  obtain ⟨taken,rest,rfl,clear,left⟩ := matches_word.mp inside
  exact word_more rfl left clear

theorem spaces_start (inside : Matches ('~' :: mask) (c :: text)) : isspace c = true := by
  obtain ⟨taken,rest,parts,some',full,-⟩ := matches_spaces.mp inside
  cases taken with
  | nil => exact absurd rfl some'
  | cons d taken =>
      cases parts
      exact full c (by simp)

theorem gap_starred (gap : Gap mask) (starts : ∀ front, ∃ rest, Matches ('%' :: mask) (front ++ rest)) : Starred mask := by
  induction gap with
  | @space c _ _ sought _ =>
      obtain ⟨d,apart,space⟩ := other_space c
      obtain ⟨rest,inside⟩ := starts [d]
      obtain ⟨after,same,-⟩ := (matches_sought sought).mp (word_space space inside)
      cases same
      exact absurd rfl apart
  | star _ _ => exact .star
  | word _ ih => exact .word (ih (fun front => (starts front).imp (fun _ => word_again)))

-- Where any text can come first, there is a star with nothing in front of it that asks for a character.
theorem sure_reopens (sure : Sure mask) (starts : ∀ front, ∃ rest, Matches mask (front ++ rest)) : Reopens mask := by
  induction sure with
  | nil =>
      obtain ⟨rest,inside⟩ := starts ['a']
      cases inside
  | last => exact .starred .star
  | any _ ih =>
      refine .any (ih (fun front => ?_))
      obtain ⟨rest,inside⟩ := starts ('a' :: front)
      obtain ⟨c,after,same,left⟩ := matches_any.mp inside
      cases same
      exact ⟨rest,left⟩
  | @escaped _ c _ _ =>
      obtain ⟨d,apart,-⟩ := other_letter c
      obtain ⟨rest,inside⟩ := starts [d]
      obtain ⟨after,same,-⟩ := matches_escaped.mp inside
      cases same
      exact absurd rfl apart
  | @plain c _ ordinary _ _ =>
      obtain ⟨d,apart,-⟩ := other_letter c
      obtain ⟨rest,inside⟩ := starts [d]
      obtain ⟨after,same,-⟩ := (matches_plain ordinary).mp inside
      cases same
      exact absurd rfl apart
  | spaces _ _ _ =>
      obtain ⟨rest,inside⟩ := starts ['a']
      have space := spaces_start inside
      simp [isspace] at space
  | star _ _ _ _ => exact .starred .star
  | word sought letter _ _ _ =>
      obtain ⟨rest,inside⟩ := starts [' ']
      obtain ⟨after,same,-⟩ := (matches_sought sought).mp (word_space (by decide) inside)
      cases same
      simp [isspace] at letter
  | gap gap _ _ => exact .starred (.word (gap_starred gap starts))

theorem sure_reenters (sure : Sure mask) (shortest : Shortest mask text) (letter : isspace c = false)
    (again : ∀ front rest, (∀ d ∈ front, isspace d = false) → Matches mask rest → Matches mask (front ++ c :: rest)) :
    Reopens mask ∨ mask.head? = some '%' := by
  have inside := shortest_inside shortest
  cases sure with
  | nil => cases again [] text (by simp) inside
  | last => exact .inl (.starred .star)
  | @any mask sure =>
      have more : ∀ d rest, Matches mask rest → Matches mask (d :: rest) := by
        intro d rest inside
        obtain ⟨e,after,same,left⟩ := matches_any.mp (again [] (d :: rest) (by simp) (.any inside))
        cases same
        exact left
      obtain ⟨d,rest,rfl,left⟩ := matches_any.mp inside
      refine .inl (.any (sure_reopens sure (fun front => ⟨rest,?_⟩)))
      induction front with
      | nil => exact left
      | cons e front ih => exact more e _ ih
  | @escaped _ e _ =>
      obtain ⟨d,apart,letter⟩ := other_letter e
      obtain ⟨after,same,-⟩ := matches_escaped.mp (again [d] text (by simpa using letter) inside)
      cases same
      exact absurd rfl apart
  | @plain e _ ordinary _ =>
      obtain ⟨d,apart,letter⟩ := other_letter e
      obtain ⟨after,same,-⟩ := (matches_plain ordinary).mp (again [d] text (by simpa using letter) inside)
      cases same
      exact absurd rfl apart
  | spaces _ _ =>
      have space := spaces_start (again [] text (by simp) inside)
      rw [letter] at space
      cases space
  | star _ _ _ => exact .inl (.starred .star)
  | word _ _ _ _ => exact .inr rfl
  | gap _ _ => exact .inr rfl

theorem sought_sure (sought : Sought c mask rest) (sure : Sure mask) : Sure rest := by
  cases sought with
  | plain ordinary =>
      cases sure with
      | plain _ sure => exact sure
      | last => exact absurd (.inr (.inl rfl)) ordinary
      | any _ => exact absurd (.inl rfl) ordinary
      | escaped _ => exact absurd (.inr (.inr (.inr (.inr rfl)))) ordinary
      | spaces _ _ => exact absurd (.inr (.inr (.inr (.inl rfl)))) ordinary
      | star _ _ _ => exact absurd (.inr (.inl rfl)) ordinary
      | word _ _ _ _ => exact absurd (.inr (.inr (.inl rfl))) ordinary
      | gap _ _ => exact absurd (.inr (.inr (.inl rfl))) ordinary
  | escape =>
      cases sure with
      | escaped sure => exact sure
      | plain ordinary _ => exact absurd (.inr (.inr (.inr (.inr rfl)))) ordinary

theorem sought_rest (sought : Sought c mask rest) (shortest : Shortest mask text) : ∃ after, Shortest rest after := by
  cases sought with
  | plain ordinary =>
      cases shortest with
      | plain _ shortest => exact ⟨_,shortest⟩
      | any _ => exact absurd (.inl rfl) ordinary
      | star _ => exact absurd (.inr (.inl rfl)) ordinary
      | word _ => exact absurd (.inr (.inr (.inl rfl))) ordinary
      | spaces _ => exact absurd (.inr (.inr (.inr (.inl rfl)))) ordinary
      | escaped _ => exact absurd (.inr (.inr (.inr (.inr rfl)))) ordinary
  | escape =>
      cases shortest with
      | escaped shortest => exact ⟨_,shortest⟩
      | plain ordinary _ => exact absurd (.inr (.inr (.inr (.inr rfl)))) ordinary

-- A wildcard that may take nothing leaves what it finds to what is behind it.
theorem behind_star (sought : Sought c mask rest) (finds : Finds ('*' :: mask)) : Finds mask := by
  intro text inside
  obtain ⟨after,rfl,-⟩ := (matches_sought sought).mp inside
  rw [← star_here (sought_head sought)]
  exact finds _ (matches_star.mpr ⟨[],_,rfl,inside⟩)

theorem behind_word (sought : Sought c mask rest) (finds : Finds ('%' :: mask)) : Finds mask := by
  intro text inside
  obtain ⟨after,rfl,-⟩ := (matches_sought sought).mp inside
  rw [← word_here (.inr (sought_head sought))]
  exact finds _ (matches_word.mpr ⟨[],_,rfl,by simp,inside⟩)

theorem star_sure (finds : Finds ('*' :: mask)) (shortest : Shortest mask text) (sure : Finds mask → Sure mask) : Sure ('*' :: mask) := by
  rcases star_first finds shortest with rfl | ⟨c,rest,sought⟩
  · exact .last
  · have sure := sure (behind_star sought finds)
    obtain ⟨after,least⟩ := sought_rest sought shortest
    refine .star sought (sure_reopens (sought_sure sought sure) (fun front => ⟨c :: after,?_⟩)) sure
    -- the star stops at the first of the two
    have inside : Matches ('*' :: mask) (c :: (front ++ c :: after)) :=
      matches_star.mpr ⟨c :: front,c :: after,rfl,(matches_sought sought).mpr ⟨after,rfl,shortest_inside least⟩⟩
    have found := finds _ inside
    rw [star_here (sought_head sought),reads_sought _ _ _ sought,if_pos rfl] at found
    exact found_inside found

theorem word_sure (finds : Finds ('%' :: mask)) (shortest : Shortest mask text) (sure : Finds mask → Sure mask) : Sure ('%' :: mask) := by
  rcases word_first finds shortest with ⟨c,rest,sought,letter⟩ | gap
  · have sure := sure (behind_word sought finds)
    obtain ⟨after,least⟩ := sought_rest sought shortest
    refine .word sought letter (sure_reenters (sought_sure sought sure) least letter ?_) sure
    intro front rest clear inside
    have whole : Matches ('%' :: mask) (c :: (front ++ c :: rest)) := by
      refine matches_word.mpr ⟨c :: front,c :: rest,rfl,?_,(matches_sought sought).mpr ⟨rest,rfl,inside⟩⟩
      intro d member
      rcases List.mem_cons.mp member with rfl | later
      · exact letter
      · exact clear d later
    have found := finds _ whole
    rw [word_here (.inr (sought_head sought)),reads_sought _ _ _ sought,if_pos rfl] at found
    exact found_inside found
  · exact .gap gap (sure ((finds_gap gap).mp finds))

-- Spaces take all there are, also those that a shortest text would need.
theorem spaces_leave (finds : Finds ('~' :: mask)) (inside : Matches mask text) : trollMatchwilds (text.dropWhile isspace) mask = 0 := by
  have found := finds (' ' :: text) (matches_spaces.mpr ⟨[' '],text,rfl,by simp,by decide,inside⟩)
  rwa [reads_spaces,if_pos (by decide)] at found

theorem spaces_first (finds : Finds ('~' :: mask)) (shortest : Shortest mask text) (inside : Matches mask other)
    (least : other.length ≤ text.length) : ∀ c ∈ other.head?, isspace c = false := by
  intro c first
  obtain ⟨rest,rfl⟩ := List.head?_eq_some_iff.mp first
  cases space : isspace c with
  | false => rfl
  | true =>
      have found := spaces_leave finds inside
      have shorter := stop_shorter isspace space rest
      exact absurd found (shorter_missed shortest (by omega))

theorem spaces_sure (finds : Finds ('~' :: mask)) (shortest : Shortest mask text) (sure : Finds mask → Sure mask) : Sure ('~' :: mask) := by
  have inside := shortest_inside shortest
  have first := spaces_first finds shortest inside (Nat.le_refl _)
  have found := spaces_leave finds inside
  rw [dropWhile_head isspace first] at found
  -- without a space in front, what the spaces leave is the text itself
  have same : (∀ text, Matches mask text → ∀ c ∈ text.head?, isspace c = false) → Finds mask := by
    intro letters text inside
    rw [← dropWhile_head isspace (letters text inside)]
    exact spaces_leave finds inside
  cases shortest with
  | nil => exact .spaces .nil .nil
  | any shortest =>
      have space := spaces_first finds (.any shortest) (matches_any.mpr ⟨' ',_,rfl,shortest_inside shortest⟩) (Nat.le_refl _)
      simp [isspace] at space
  | spaces _ => simp [isspace] at first
  | @escaped mask _ c shortest =>
      have letter : isspace c = false := by simpa using first
      refine .spaces (.escaped letter) (sure (same ?_))
      intro text inside
      obtain ⟨rest,rfl,-⟩ := matches_escaped.mp inside
      simpa using letter
  | @plain c mask _ ordinary shortest =>
      have letter : isspace c = false := by simpa using first
      refine .spaces (.plain ordinary letter) (sure (same ?_))
      intro text inside
      obtain ⟨rest,rfl,-⟩ := (matches_plain ordinary).mp inside
      simpa using letter
  | @star mask _ shortest =>
      rcases (stops_first shortest).1 found with rfl | ⟨c,rest,sought⟩
      · exact .spaces .last .last
      · obtain ⟨after,rfl⟩ := sought_shortest sought shortest
        have letter : isspace c = false := by simpa using first
        refine .spaces (.star sought letter) (sure ?_)
        intro text inside
        have found := spaces_leave finds inside
        obtain ⟨taken,_,rfl,left⟩ := matches_star.mp inside
        obtain ⟨after,rfl,-⟩ := (matches_sought sought).mp left
        -- the star goes over the spaces as well
        obtain ⟨spaces,parts,full,halts⟩ := dropWhile_parts isspace (taken ++ c :: after)
        have some' : (taken ++ c :: after).dropWhile isspace ≠ [] := by
          intro empty
          have all := List.dropWhile_eq_nil_iff.mp empty c (by simp)
          rw [letter] at all
          cases all
        rw [reads_star _ some',starStop] at found
        rw [reads_star _ (by simp),starStop,parts,List.dropWhile_append_of_pos]
        · exact found
        · intro d member
          have apart : d ≠ c := by
            rintro rfl
            rw [full d member] at letter
            cases letter
          simpa [sought_head sought] using apart
  | @word mask _ shortest =>
      rcases (stops_first shortest).2 found with ⟨c,rest,sought,letter⟩ | gap | blocked
      · refine .spaces (.word sought letter) (sure (same ?_))
        intro text inside
        obtain ⟨taken,_,rfl,clear,left⟩ := matches_word.mp inside
        obtain ⟨after,rfl,-⟩ := (matches_sought sought).mp left
        cases taken with
        | nil => simpa using letter
        | cons d taken => simpa using clear d (by simp)
      · obtain ⟨s,after,rfl,space⟩ := gap_shortest gap shortest
        simp [space] at first
      · obtain ⟨s,after,rfl,space⟩ := blocked_shortest blocked shortest
        simp [space] at first

theorem finds_sure (shortest : Shortest mask text) (finds : Finds mask) : Sure mask := by
  induction shortest with
  | nil => exact .nil
  | any _ ih =>
      refine .any (ih (fun text inside => ?_))
      rw [← reads_any 'a']
      exact finds _ (.any inside)
  | @escaped _ _ c _ ih =>
      refine .escaped (ih (fun text inside => ?_))
      have found := finds (c :: text) (.escaped inside)
      rwa [reads_escaped,if_pos rfl] at found
  | @plain c _ _ ordinary _ ih =>
      refine .plain ordinary (ih (fun text inside => ?_))
      have found := finds (c :: text) (.plain ordinary inside)
      rwa [reads_plain _ _ _ ordinary,if_pos rfl] at found
  | star shortest ih => exact star_sure finds shortest ih
  | word shortest ih => exact word_sure finds shortest ih
  | spaces shortest ih => exact spaces_sure finds shortest ih

theorem lone_plain (other : c ≠ '\\') (mask : Str) : loneEscape (c :: mask) = loneEscape mask := by
  rw [loneEscape]
  · rintro rfl
    exact absurd rfl other
  · rintro _ _ rfl
    exact absurd rfl other

theorem shortest_exists (spelled : loneEscape mask = false) : ∃ text, Shortest mask text := by
  fun_induction loneEscape mask with
  | case1 => exact ⟨[],.nil⟩
  | case2 => cases spelled
  | case3 c mask ih =>
      obtain ⟨text,shortest⟩ := ih spelled
      exact ⟨c :: text,.escaped shortest⟩
  | case4 c mask alone escape ih =>
      obtain ⟨text,shortest⟩ := ih spelled
      by_cases special : Wildcard c
      · rcases special with rfl | rfl | rfl | rfl | rfl
        · exact ⟨_,.any shortest⟩
        · exact ⟨_,.star shortest⟩
        · exact ⟨_,.word shortest⟩
        · exact ⟨_,.spaces shortest⟩
        · cases mask with
          | nil => exact absurd rfl (alone rfl)
          | cons d mask => exact absurd rfl (escape d mask rfl)
      · exact ⟨c :: text,.plain special shortest⟩

theorem matches_spelled (inside : Matches mask text) : loneEscape mask = false := by
  induction inside with
  | nil => rfl
  | any _ ih => rwa [lone_plain (by decide)]
  | star _ _ ih => rwa [lone_plain (by decide)]
  | word _ _ ih => rwa [lone_plain (by decide)]
  | spaces _ _ _ ih => rwa [lone_plain (by decide)]
  | escaped _ ih => rwa [loneEscape]
  | plain ordinary _ ih => rwa [lone_plain (fun same => ordinary (.inr (.inr (.inr (.inr same)))))]

-- Both matchers find every text of a mask's language exactly where every wildcard of the mask may stop at its
-- first place. Nothing is in the language of a mask that ends in a lone backslash.
theorem masks_sure (mask : Str) :
    (∀ text, Matches mask text → trollMatchwilds text mask = 0 ∧ matchwilds (some text) (some mask) = some 0) ↔
      loneEscape mask = true ∨ Sure mask := by
  constructor
  · intro finds
    cases spelled : loneEscape mask with
    | true => exact .inl rfl
    | false =>
        obtain ⟨text,shortest⟩ := shortest_exists spelled
        exact .inr (finds_sure shortest (fun text inside => (finds text inside).1))
  · rintro (alone | sure) text inside
    · rw [matches_spelled inside] at alone
      cases alone
    · have found := sure_finds sure text inside
      exact ⟨found,troll_wild found⟩

-- A word that ends at the second of two equal characters is missed by both.
theorem word_missed : Matches ['%','b'] ['a','b','b'] ∧ trollMatchwilds ['a','b','b'] ['%','b'] = 1 ∧
    matchwilds (some ['a','b','b']) (some ['%','b']) = some 1 := by
  refine ⟨?_,?_,by decide⟩
  · have inside : Matches ['b'] ['b'] := .plain (by simp [Wildcard]) .nil
    have word : ∀ c ∈ ['a','b'], isspace c = false := by decide
    exact .word word inside
  · rw [troll_turn]
    simp [troll_turn,trollMatchwilds,isspace]

end Trollbot

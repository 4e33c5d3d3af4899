import Trollbot.Foundation.Cursor
import Trollbot.WildLanguage

-- matchwilds with its pointers as indices into the two strings.
namespace Trollbot
open Machine CBuffer
open Irc (isspace)

structure WildAt where
  haystack : Nat
  needle : Nat
  escaped : Bool
  lasthay : Option Nat
  lastneedle : Option Nat

def WildAt.back (st : WildAt) : Outcome WildAt Nat :=
  match st.lasthay,st.lastneedle with
  | some lasthay,some lastneedle => .next { st with haystack := lasthay, needle := lastneedle, lasthay := none, lastneedle := none }
  | _,_ => .done 1

-- The tests behind the escape, at the mask's character d and the text's character h.
def WildAt.turn (haystack needle : Buffer) (st : WildAt) (d h : Char) : Outcome WildAt Nat :=
  if d = '?' ∧ st.escaped = false then .next { st with needle := st.needle + 1, haystack := st.haystack + 1 }
  else if d = '*' ∧ st.escaped = false then
    look (skip haystack (fun e => (peek needle (st.needle + 1)).map (fun f => e ≠ f)) st.haystack) fun i =>
    .next { st with haystack := i, lasthay := some (i + 1), lastneedle := some st.needle, needle := st.needle + 1 }
  else if d = '%' ∧ st.escaped = false then
    look (skip haystack (fun e => if isspace e then some false else (peek needle (st.needle + 1)).map (fun f => e ≠ f)) st.haystack) fun i =>
    .next { st with haystack := i, needle := st.needle + 1 }
  else if d = '~' ∧ st.escaped = false then
    if isspace h then
      look (skip haystack (fun e => some (isspace e)) (st.haystack + 1)) fun i =>
      .next { st with haystack := i, needle := st.needle + 1 }
    else .done 1
  else if d ≠ h then st.back
  else .next { st with needle := st.needle + 1, haystack := st.haystack + 1, escaped := false }

-- One turn of the loop, or the test after it, read by read.
def wildAtStep (haystack needle : Buffer) (st : WildAt) : Outcome WildAt Nat :=
  look (peek needle st.needle) fun c =>
  look (peek haystack st.haystack) fun h =>
  if c = nul then .done (if h = nul then 0 else 1)
  else if h = nul then
    if c = '*' then look (peek needle (st.needle + 1)) fun d => .done (if d = nul ∧ st.escaped = false then 0 else 1)
    else .done 1
  else if c = '\\' then
    look (peek needle (st.needle + 1)) fun d => WildAt.turn haystack needle { st with escaped := true, needle := st.needle + 1 } d h
  else WildAt.turn haystack needle st c h

-- A pointer into the text, or one past its terminator.
def Points (s : Str) (i : Nat) : Option Str → Prop
  | some rest => Stands s i rest
  | none => i = s.length + 1

def LastPoints (text mask : Str) (st : WildAt) : Option (Option Str × Str) → Prop
  | none => st.lasthay = none ∧ st.lastneedle = none
  | some (lasthay,lastneedle) => ∃ i j, st.lasthay = some i ∧ st.lastneedle = some j ∧ Points text i lasthay ∧ Stands mask j lastneedle

structure WildAt.Shows (text mask : Str) (st : Wild) (at' : WildAt) : Prop where
  haystack : Points text at'.haystack st.haystack
  needle : Stands mask at'.needle st.needle
  escaped : at'.escaped = st.escaped
  last : LastPoints text mask at' st.last

theorem back_together {text mask : Str} {haystack : Option Str} {needle : Str} {escaped : Bool} {at' : WildAt}
    (last : LastPoints text mask at' noted) (same : at'.escaped = escaped) :
    Together (WildAt.Shows text mask) (Wild.back ⟨haystack,needle,escaped,noted⟩) at'.back := by
  cases noted with
  | none =>
      obtain ⟨hay,needle⟩ := last
      simp only [Wild.back,WildAt.back,hay]
      exact .done
  | some noted =>
      obtain ⟨lasthay,lastneedle⟩ := noted
      obtain ⟨i,j,hay,needle,points,stands⟩ := last
      simp only [Wild.back,WildAt.back,hay,needle]
      exact .next ⟨points,stands,same,rfl,rfl⟩

section
variable {text mask haystack needle : Str} {b m : Buffer} {at' : WildAt} {h : Char} {last : Option (Option Str × Str)}

theorem matched_together (stands : Stands text at'.haystack (h :: haystack)) (here : Stands mask at'.needle (c :: needle))
    (noted : LastPoints text mask at' last) : Together (WildAt.Shows text mask) (.next ⟨some haystack,needle,false,last⟩ : Outcome Wild Nat)
      (.next { at' with needle := at'.needle + 1, haystack := at'.haystack + 1, escaped := false }) := by
  refine .next ⟨stands.next,here.next,rfl,?_⟩
  cases last with
  | none => exact noted
  | some last => exact noted

-- The test against the mask's next character, where the text goes on.
theorem differs_next (clean : c ≠ nul) : some (decide (c ≠ needle.headD nul)) = some (decide (some c ≠ needle.head?)) := by
  cases needle with
  | nil => simp [clean]
  | cons d needle => simp

theorem star_skips (read : CBuffer.text b = some text) (other : CBuffer.text m = some mask) (stands : Stands text i haystack)
    (here : Stands mask j needle) : ∃ k, skip b (fun e => (peek m j).map (fun f => decide (e ≠ f))) i = some k ∧
      Stands text k (haystack.dropWhile (fun c => some c ≠ needle.head?)) := by
  refine skip_stands read (fun c clean => ?_) stands
  rw [peek_stands other here]
  exact differs_next clean

theorem word_skips (read : CBuffer.text b = some text) (other : CBuffer.text m = some mask) (stands : Stands text i haystack)
    (here : Stands mask j needle) :
    ∃ k, skip b (fun e => if isspace e then some false else (peek m j).map (fun f => decide (e ≠ f))) i = some k ∧
      Stands text k (haystack.dropWhile (fun c => !isspace c && some c ≠ needle.head?)) := by
  refine skip_stands read (fun c clean => ?_) stands
  by_cases space : isspace c = true
  · simp [space]
  · rw [peek_stands other here,if_neg space]
    refine (differs_next clean).trans ?_
    simp [space]

theorem spaces_skips (read : CBuffer.text b = some text) (stands : Stands text i haystack) :
    ∃ k, skip b (fun e => some (isspace e)) i = some k ∧ Stands text k (haystack.dropWhile isspace) :=
  skip_stands read (fun _ _ => rfl) stands

-- The place behind the star's stop is in the text, or one past the terminator.
theorem points_behind (stands : Stands text i stop) : Points text (i + 1) (if stop = [] then none else some stop.tail) := by
  cases stop with
  | nil =>
      have left := stands.length
      simp only [List.length_nil] at left
      simp only [if_true,Points]
      omega
  | cons c stop => exact stands.next

theorem last_kept {after : WildAt} (noted : LastPoints text mask at' last) (hay : after.lasthay = at'.lasthay)
    (mark : after.lastneedle = at'.lastneedle) : LastPoints text mask after last := by
  cases last with
  | none => exact ⟨hay.trans noted.1,mark.trans noted.2⟩
  | some last =>
      obtain ⟨i,j,first,second,points⟩ := noted
      exact ⟨i,j,hay.trans first,mark.trans second,points⟩

-- The turn of the two machines at an ordinary character, or at any character behind an escape.
theorem turn_plain (stands : Stands text at'.haystack (h :: haystack)) (here : Stands mask at'.needle needle)
    (noted : LastPoints text mask at' last) (literal : at'.escaped = true ∨ ¬Wildcard c) (next : c = h → ∃ more, needle = c :: more) :
    Together (WildAt.Shows text mask)
      (if c = h then .next ⟨some haystack,needle.tail,false,last⟩ else Wild.back ⟨some (h :: haystack),needle,at'.escaped,last⟩)
      (WildAt.turn b m at' c h) := by
  have turned : WildAt.turn b m at' c h = if c ≠ h then at'.back else
      .next { at' with needle := at'.needle + 1, haystack := at'.haystack + 1, escaped := false } := by
    rcases literal with escaped | ordinary
    · simp [WildAt.turn,escaped]
    · simp only [Wildcard,not_or] at ordinary
      simp [WildAt.turn,ordinary]
  rw [turned]
  by_cases same : c = h
  · obtain ⟨more,rfl⟩ := next same
    rw [if_pos same,if_neg (not_not.mpr same)]
    exact matched_together stands here noted
  · rw [if_neg same,if_pos same]
    exact back_together noted rfl

theorem turn_wild (read : CBuffer.text b = some text) (other : CBuffer.text m = some mask) (stands : Stands text at'.haystack (h :: haystack))
    (here : Stands mask at'.needle (c :: needle)) (noted : LastPoints text mask at' last) (plain : at'.escaped = false)
    (wild : c = '?' ∨ c = '*' ∨ c = '%' ∨ c = '~') :
    Together (WildAt.Shows text mask) (wildStep ⟨some (h :: haystack),c :: needle,false,last⟩) (WildAt.turn b m at' c h) := by
  rcases wild with rfl | rfl | rfl | rfl
  · rw [wild_any]
    simp only [WildAt.turn,plain,and_self,if_true]
    exact .next ⟨stands.next,here.next,rfl,last_kept noted rfl rfl⟩
  · obtain ⟨k,skipped,there⟩ := star_skips read other stands here.next
    rw [wild_star _ _ _ _ rfl]
    simp only [WildAt.turn,plain,and_self,if_true,Char.reduceEq,false_and,if_false,skipped,look_some]
    exact .next ⟨there,here.next,rfl,k + 1,at'.needle,rfl,rfl,points_behind there,here⟩
  · obtain ⟨k,skipped,there⟩ := word_skips read other stands here.next
    rw [wild_word _ _ _ _ rfl]
    simp only [WildAt.turn,plain,and_self,if_true,Char.reduceEq,false_and,if_false,skipped,look_some]
    exact .next ⟨there,here.next,rfl,last_kept noted rfl rfl⟩
  · rw [wild_spaces]
    simp only [WildAt.turn,plain,and_self,if_true,Char.reduceEq,false_and,if_false]
    split
    · obtain ⟨k,skipped,there⟩ := spaces_skips read stands.next
      simp only [skipped,look_some]
      exact .next ⟨there,here.next,rfl,last_kept noted rfl rfl⟩
    · exact .done

theorem wild_at (read : CBuffer.text b = some text) (other : CBuffer.text m = some mask) {st : Wild} (sound : st.Sound text mask)
    (shows' : at'.Shows text mask st) : Together (WildAt.Shows text mask) (wildStep st) (wildAtStep b m at') := by
  obtain ⟨stands,here,escape,noted⟩ := shows'
  obtain ⟨escapes,⟨rest,there,-⟩,-⟩ := sound
  obtain ⟨haystack,needle,escaped,last⟩ := st
  simp only at stands here escape noted escapes there
  subst there
  have first := peek_stands other here
  have second := peek_stands read stands
  cases needle with
  | nil =>
      cases rest with
      | nil =>
          simp only [wildStep,wildAtStep,first,second,look_some,List.headD_nil,if_true]
          exact .done
      | cons h rest =>
          have clean := stands_clean read stands
          simp only [wildStep,wildAtStep,first,second,look_some,List.headD_nil,List.headD_cons,if_true,clean,if_false,reduceCtorEq]
          exact .done
  | cons c needle =>
      have cleanMask := stands_clean other here
      have behind := peek_stands other here.next
      cases rest with
      | nil =>
          simp only [wildStep,wildAtStep,first,second,look_some,List.headD_nil,List.headD_cons,cleanMask,if_false,if_true]
          by_cases star : c = '*'
          · have ends : (needle.headD nul = nul) ↔ needle = [] := by
              cases needle with
              | nil => simp
              | cons d needle =>
                  have clean := stands_clean other here.next
                  simp [clean]
            simp only [star,if_true,behind,look_some,ends,escape,true_and]
            exact .done
          · simp only [star,if_false,false_and]
            exact .done
      | cons h rest =>
          have clean := stands_clean read stands
          have turned : wildAtStep b m at' = if c = '\\' then
              WildAt.turn b m { at' with escaped := true, needle := at'.needle + 1 } (needle.headD nul) h
              else WildAt.turn b m at' c h := by
            simp only [wildAtStep,first,second,look_some,List.headD_cons,cleanMask,clean,if_false,behind]
          rw [turned]
          cases escaped with
          | true =>
              have star : c = '*' := by simpa using escapes rfl
              subst star
              have other' : ¬ '*' = '\\' := by decide
              rw [wild_again,if_neg other',← escape]
              exact turn_plain stands here noted (.inl escape) (fun _ => ⟨needle,rfl⟩)
          | false =>
              by_cases ordinary : Wildcard c
              · by_cases slash : c = '\\'
                · subst slash
                  rw [if_pos rfl]
                  have after := @turn_plain text mask rest needle b m { at' with escaped := true, needle := at'.needle + 1 } h last
                    (needle.headD nul) stands here.next (last_kept noted rfl rfl) (.inl rfl)
                  cases needle with
                  | nil =>
                      rw [wild_lone]
                      rw [List.headD_nil,if_neg clean.symm] at after
                      exact after (fun same => absurd same clean.symm)
                  | cons d needle =>
                      rw [wild_escaped]
                      exact after (fun _ => ⟨needle,rfl⟩)
                · rw [if_neg slash]
                  refine turn_wild read other stands here noted escape ?_
                  rcases ordinary with any | star | word | spaces | same
                  · exact .inl any
                  · exact .inr (.inl star)
                  · exact .inr (.inr (.inl word))
                  · exact .inr (.inr (.inr spaces))
                  · exact absurd same slash
              · have slash : ¬c = '\\' := fun same => ordinary (.inr (.inr (.inr (.inr same))))
                rw [wild_plain _ _ _ _ ordinary,if_neg slash]
                have after := @turn_plain text mask rest (c :: needle) b m at' h last c stands here noted (.inr ordinary) (fun _ => ⟨needle,rfl⟩)
                rwa [escape] at after

end

-- matchwilds ends on every two strings, reads neither behind its terminator, and returns what the model returns.
theorem wild_inside {text mask : Str} (read : CBuffer.text b = some text) (other : CBuffer.text m = some mask) :
    ∃ result, Ends (wildAtStep b m) ⟨0,0,false,none,none⟩ result ∧ matchwilds (some text) (some mask) = some result := by
  obtain ⟨result,ends,returns⟩ := wild_ends text mask
  refine ⟨result,?_,returns⟩
  refine ends_together (fun st at' => st.Sound text mask ∧ at'.Shows text mask st) ?_ ⟨start_sound text mask,?_⟩ ends
  · intro st at' both'
    obtain ⟨sound,shows'⟩ := both'
    have both := wild_at read other sound shows'
    have progress := wild_progress sound
    generalize wildStep st = outcome at both progress
    generalize wildAtStep b m at' = outcome' at both
    cases both with
    | next related =>
        rcases progress with ⟨result,ended,-⟩ | ⟨later,taken,kept,-⟩
        · cases ended
        · cases taken
          exact .next ⟨kept,related⟩
    | done => exact .done
    | fault => exact .fault
  · exact ⟨stands_first text,stands_first mask,rfl,rfl,rfl⟩

-- The mask ends in a backslash.
theorem lone_escape_inside : ∃ result, Ends (wildAtStep (ofText ['a','b']) (ofText ['*','\\'])) ⟨0,0,false,none,none⟩ result ∧
    matchwilds (some ['a','b']) (some ['*','\\']) = some result :=
  wild_inside (text_ofText (by decide)) (text_ofText (by decide))

end Trollbot

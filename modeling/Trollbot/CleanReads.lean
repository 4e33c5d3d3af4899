import Trollbot.IrcTrigger
import Trollbot.LineIn

-- What is read of a line has no line break.
namespace Trollbot.Irc
open CBuffer IrcParse LineIn

def Unbroken (s : Str) : Prop := ∀ c ∈ s, isTerm c = false

theorem unbroken_nil : Unbroken [] := by simp [Unbroken]

theorem unbroken_append (first : Unbroken a) (second : Unbroken b) : Unbroken (a ++ b) := by
  intro c member
  exact (List.mem_append.mp member).elim (first c) (second c)

-- The lines that irc_in hands on have no line break.
theorem lineLoop_unbroken {lines : List Str} (looped : lineLoop fuel st = some (lines,last)) : ∀ line ∈ lines, Unbroken line := by
  induction fuel generalizing st lines with
  | zero => cases looped
  | succ fuel ih =>
      rw [lineLoop] at looped
      split at looped
      · cases looped
        simp
      · obtain ⟨held,-,looped⟩ := Option.bind_eq_some_iff.mp looped
        have first : Unbroken (held.takeWhile (fun c => !isTerm c)) := by
          intro c member
          simpa using List.mem_takeWhile_imp member
        split at looped
        · dsimp only at looped
          split at looped
          · cases looped
            simpa using first
          · obtain ⟨⟨more,last'⟩,again,looped⟩ := Option.bind_eq_some_iff.mp looped
            cases looped
            exact List.forall_mem_cons.mpr ⟨first,ih again⟩
        · cases looped
          simp

theorem lineRun_unbroken {lines : List Str} (ran : lineRun .irc st chunks = some (lines,last)) : ∀ line ∈ lines, Unbroken line := by
  induction chunks generalizing st lines with
  | nil =>
      cases ran
      simp
  | cons s rest ih =>
      obtain ⟨⟨first,next,ret⟩,read,ran⟩ := Option.bind_eq_some_iff.mp ran
      obtain ⟨⟨more,last'⟩,again,ran⟩ := Option.bind_eq_some_iff.mp ran
      cases ran
      obtain ⟨⟨buffer,size,pos⟩,-,read⟩ := Option.bind_eq_some_iff.mp read
      obtain ⟨filled,-,read⟩ := Option.bind_eq_some_iff.mp read
      obtain ⟨⟨own,left⟩,looped,read⟩ := Option.bind_eq_some_iff.mp read
      cases read
      intro line member
      exact (List.mem_append.mp member).elim (lineLoop_unbroken looped line) (ih again line)

-- The words of an array, however the line is written.
def TidySlots (slots : Slots) : Prop := ∀ word, some (some word) ∈ slots → Unbroken word

theorem write_tidy {slots cells later : Slots} (written : write slots pos cells = some later) (tidy : TidySlots slots) (new : TidySlots cells) :
    TidySlots later := by
  unfold write at written
  split at written
  · cases written
    intro word member
    rcases List.mem_append.mp member with front | behind
    · rcases List.mem_append.mp front with before | here
      · exact tidy word (List.mem_of_mem_take before)
      · exact new word here
    · exact tidy word (List.mem_of_mem_drop behind)
  · cases written

theorem grow_tidy {slots later : Slots} (grown : grow none slots size recorded = some later) (tidy : TidySlots slots) : TidySlots later := by
  have resized : TidySlots (resize slots size) := by
    intro word member
    rcases List.mem_append.mp member with old | new
    · exact tidy word (List.mem_of_mem_take old)
    · cases (List.mem_replicate.mp new).2
  unfold grow at grown
  split at grown
  · split at grown
    · cases grown
    · refine write_tidy grown resized ?_
      intro word member
      cases (List.mem_replicate.mp member).2
  · cases grown
    exact resized

theorem advance_tidy {t next : Tokens} (moved : t.advance = some next) (tidy : TidySlots t.slots) : TidySlots next.slots := by
  unfold Tokens.advance at moved
  dsimp only at moved
  split at moved
  · obtain ⟨⟨slots,bufsize⟩,grown,same⟩ := Option.bind_eq_some_iff.mp moved
    cases same
    obtain ⟨cells,larger,same⟩ := Option.map_eq_some_iff.mp grown
    cases same
    exact grow_tidy larger tidy
  · cases moved
    exact tidy

theorem openWord_tidy {t next : Tokens} (opened : t.openWord = some next) (tidy : TidySlots t.slots) : TidySlots next.slots := by
  obtain ⟨slots,written,same⟩ := Option.bind_eq_some_iff.mp opened
  cases same
  refine write_tidy written tidy ?_
  intro word member
  simp only [List.mem_cons,Option.some.injEq,reduceCtorEq,List.not_mem_nil,or_false] at member
  subst member
  exact unbroken_nil

theorem put_tidy {t next : Tokens} (plain : isTerm c = false) (put : t.put c = some next) (tidy : TidySlots t.slots) : TidySlots next.slots := by
  unfold Tokens.put at put
  split at put
  · rename_i word here
    cases put
    intro other member
    rcases List.mem_or_eq_of_mem_set member with old | new
    · exact tidy other old
    · cases new
      intro d inside
      rcases List.mem_append.mp inside with before | last
      · exact tidy word (List.mem_of_getElem? here) d before
      · rw [List.mem_singleton.mp last]
        exact plain
  · cases put

theorem plain_term {c : Char} (feed : c ≠ '\n') (carriage : c ≠ '\r') : isTerm c = false := by simp [isTerm,feed,carriage]

-- Both loops stop at a line break before they store it.
theorem tokenize_tidy (n : Nat) (s : Str) (short : s.length ≤ n) (tidy : TidySlots (t.getD .new).slots)
    (read : tokenize middle last s t = some (some next,rest)) : TidySlots next.slots := by
  induction n generalizing s t last with
  | zero =>
      obtain rfl := List.length_eq_zero_iff.mp (Nat.le_zero.mp short)
      cases read
      exact tidy
  | succ n ih =>
      cases s with
      | nil =>
          cases read
          exact tidy
      | cons c s =>
          rw [List.length_cons] at short
          rw [tokenize] at read
          split at read
          · cases read
            exact tidy
          · rename_i goes
            simp only [not_or] at goes
            dsimp only at read
            split at read
            · obtain ⟨moved,advanced,read⟩ := Option.bind_eq_some_iff.mp read
              have ahead := advance_tidy advanced tidy
              cases s with
              | nil =>
                  dsimp only at read
                  split at read
                  · cases read
                  · cases read
                    exact ahead
              | cons d s =>
                  dsimp only at read
                  split at read
                  · cases read
                    exact ahead
                  · rename_i inner
                    simp only [not_or] at inner
                    obtain ⟨opened,opens,read⟩ := Option.bind_eq_some_iff.mp read
                    obtain ⟨put,puts,read⟩ := Option.bind_eq_some_iff.mp read
                    rw [List.length_cons] at short
                    exact ih s (by omega) (put_tidy (plain_term inner.2.1 inner.1) puts (openWord_tidy opens ahead)) read
            · obtain ⟨put,puts,read⟩ := Option.bind_eq_some_iff.mp read
              exact ih s (by omega) (put_tidy (plain_term goes.1 goes.2.1) puts tidy) read

theorem new_tidy : TidySlots Tokens.new.slots := by
  intro word member
  simp only [Tokens.new,List.mem_cons,List.mem_replicate,Option.some.injEq,reduceCtorEq,and_false,or_false] at member
  subst member
  exact unbroken_nil

-- What is read of a line.
structure TidyData (data : IrcData) : Prop where
  sender : ∀ pre, data.pre = some pre → Unbroken (shown pre.nick)
  params : ∀ slots, data.cParams = some slots → TidySlots slots
  rest : ∀ slots, data.rest = some slots → TidySlots slots

theorem takeTo_unbroken (taken : takeTo stop s = some (front,behind)) (clean : Unbroken s) : Unbroken front ∧ Unbroken behind := by
  induction s generalizing front with
  | nil => cases taken
  | cons c s ih =>
      have rest : Unbroken s := fun d member => clean d (List.mem_cons_of_mem _ member)
      rw [takeTo] at taken
      split at taken
      · cases taken
        exact ⟨unbroken_nil,rest⟩
      · obtain ⟨parts,later,same⟩ := Option.map_eq_some_iff.mp taken
        cases same
        obtain ⟨first,last⟩ := ih later rest
        exact ⟨List.forall_mem_cons.mpr ⟨clean c List.mem_cons_self,first⟩,last⟩

theorem parsePrefix_unbroken (parsed : parsePrefix netNick tmp = some pre) (clean : Unbroken tmp) : Unbroken (shown pre.nick) := by
  unfold parsePrefix at parsed
  split at parsed
  · obtain ⟨⟨nick,s⟩,taken,parsed⟩ := Option.bind_eq_some_iff.mp parsed
    obtain ⟨⟨user,host⟩,-,parsed⟩ := Option.bind_eq_some_iff.mp parsed
    cases parsed
    exact (takeTo_unbroken taken clean).1
  · split at parsed
    · cases parsed
      exact clean
    · cases parsed
      change Unbroken "(null)".toList
      unfold Unbroken
      decide

theorem readPrefix_unbroken (read : readPrefix netNick buffer = some (some pre,s)) (clean : Unbroken buffer) : Unbroken (shown pre.nick) := by
  unfold readPrefix at read
  split at read
  · obtain ⟨⟨tmp,s'⟩,taken,read⟩ := Option.bind_eq_some_iff.mp read
    obtain ⟨own,parsed,read⟩ := Option.bind_eq_some_iff.mp read
    cases read
    exact parsePrefix_unbroken parsed (takeTo_unbroken taken (fun c member => clean c (List.mem_cons_of_mem _ member))).1
  · cases read

theorem decode_tidy (clean : Unbroken buffer) (read : decode netNick buffer = some data) : TidyData data := by
  obtain ⟨⟨pre,s⟩,start,read⟩ := Option.bind_eq_some_iff.mp read
  obtain ⟨⟨command,s'⟩,-,read⟩ := Option.bind_eq_some_iff.mp read
  obtain ⟨⟨params,left⟩,first,read⟩ := Option.bind_eq_some_iff.mp read
  obtain ⟨⟨rest,behind⟩,second,read⟩ := Option.bind_eq_some_iff.mp read
  cases read
  refine ⟨?_,?_,?_⟩
  · rintro pre rfl
    exact readPrefix_unbroken start clean
  · intro slots same
    obtain ⟨t,rfl,rfl⟩ := Option.map_eq_some_iff.mp same
    exact tokenize_tidy (t := none) _ _ (Nat.le_refl _) new_tidy first
  · intro slots same
    obtain ⟨t,rfl,rfl⟩ := Option.map_eq_some_iff.mp same
    exact tokenize_tidy (t := none) _ _ (Nat.le_refl _) new_tidy second

theorem slot_tidy (tidy : ∀ slots, array = some slots → TidySlots slots) (read : slot array i = some (some word)) : Unbroken word := by
  obtain ⟨slots,rfl,read⟩ := Option.bind_eq_some_iff.mp read
  obtain ⟨cell,here,read⟩ := Option.bind_eq_some_iff.mp read
  subst read
  exact tidy slots rfl word (List.mem_of_getElem? here)

end Trollbot.Irc

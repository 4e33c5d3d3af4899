import Trollbot.Foundation.Chain
import Trollbot.Util
import Mathlib.Data.List.TakeWhile

namespace Trollbot

inductive TrigType where
  | pub
  | pubm
  | msg
  | msgm
  | part
  | notc
  | join
  | sign
  | ctcp
  | kick
  | dcc
  | topc
  | raw
deriving DecidableEq

-- Handlers are functions in the program and names here.
structure Trigger (η : Type) where
  globFlags : Option Str
  chanFlags : Option Str
  type : TrigType
  mask : Str
  command : Option Str
  handler : Option η
  usecount : Nat

abbrev TrigTable (η : Type) := TrigType → Chain (Trigger η)

section
variable {η : Type}

def newTrigTable : TrigTable η := fun _ => .empty

-- Flags come as userflags|chanflags; without a bar a leading '-' stands for none.
def newTrigger (flags : Option Str) (type : TrigType) (mask : Str) (command : Option Str)
    (handler : Option η) : Trigger η :=
  let (globFlags,chanFlags) : Option Str × Option Str :=
    match flags with
    | none => (none,none)
    | some flags =>
      if '|' ∈ flags then
        let tmp := (flags.dropWhile (fun c => c ≠ '|')).tail
        let size := flags.length - (tmp.length + 1)
        (if size ≠ 0 then some (flags.take size) else none,some tmp)
      else (if flags.head? = some '-' then none else some flags,none)
  ⟨globFlags,chanFlags,type,mask,command,handler,0⟩

def triggerListAdd (trigs : TrigTable η) (type : TrigType) (new : Trigger η) : TrigTable η :=
  fun other => if other = type then (trigs other).add new else trigs other

def triggerListDel (trigs : TrigTable η) (type : TrigType) (place : Nat) : TrigTable η :=
  fun other => if other = type then (trigs other).del place else trigs other

-- The type names egg_bind adds triggers for.
def bindType (type : Str) : Option TrigType :=
  [("pub".toList,TrigType.pub),("pubm".toList,.pubm),("msg".toList,.msg),("msgm".toList,.msgm),
    ("notc".toList,.notc),("join".toList,.join),("part".toList,.part),("sign".toList,.sign),
    ("ctcp".toList,.ctcp),("dcc".toList,.dcc),("topc".toList,.topc),("raw".toList,.raw)].find?
      (fun known => tstrcasecmp known.1 type = 0) |>.map (·.2)

-- A built-in trigger has no command to compare with.
def alreadyBound (mask cmd : Str) : List (Trigger η) → Option Bool
  | [] => some false
  | trigger :: rest =>
    if tstrcasecmp trigger.mask mask = 0 then do
      let command ← trigger.command
      if tstrcasecmp command cmd = 0 then some true else alreadyBound mask cmd rest
    else alreadyBound mask cmd rest

-- Removes the first trigger with the same mask.
def unstack (trigs : TrigTable η) (kind : TrigType) (mask : Str) : TrigTable η :=
  match (trigs kind).items.findIdx? (fun trigger => tstrcasecmp trigger.mask mask = 0) with
  | none => trigs
  | some place => triggerListDel trigs kind place

-- The table afterwards and the returned array, up to its terminator. The listing branch, without a
-- handler, has walked past the end before it copies anything.
def eggBind (trigs : TrigTable η) (type _flags mask cmd : Str) (handler : Option η) :
    Option (TrigTable η × Option (List Str)) :=
  match handler,bindType type with
  | none,_ => some (trigs,some [])
  | some _,none => some (trigs,some [])
  | some _,some kind =>
    let new := newTrigger none kind mask (some cmd) handler
    match kind with
    | .pub | .msg => some (triggerListAdd (unstack trigs kind mask) kind new,some [cmd])
    | .pubm => do
      if ← alreadyBound mask cmd (trigs .pubm).items then some (trigs,none)
      else some (triggerListAdd trigs .pubm new,some [cmd])
    | _ => some (triggerListAdd trigs kind new,some [cmd])

-- The user flags a registration asks for.
def requiredFlags : Option Str → Str
  | none => []
  | some flags =>
    let own := flags.takeWhile (fun c => c ≠ '|')
    if own.head? = some '-' then [] else own

-- What a trigger stores covers what its registration asked for.
def Covers (trigger : Trigger η) (flags : Option Str) : Prop :=
  ∀ flag ∈ requiredFlags flags, ∃ own, trigger.globFlags = some own ∧ flag ∈ own

theorem bar_split {flags : Str} (bar : '|' ∈ flags) :
    flags.take (flags.length - ((flags.dropWhile (fun c => c ≠ '|')).tail.length + 1)) =
      flags.takeWhile (fun c => c ≠ '|') := by
  have whole := List.takeWhile_append_dropWhile (p := fun c => decide (c ≠ '|')) (l := flags)
  cases rest : flags.dropWhile (fun c => decide (c ≠ '|')) with
  | nil =>
      have := List.dropWhile_eq_nil_iff.mp rest '|' bar
      simp at this
  | cons stop tail =>
      rw [rest] at whole
      have length := congrArg List.length whole
      simp only [List.length_append,List.length_cons] at length
      have front : flags.length - ((stop :: tail).tail.length + 1) =
          (flags.takeWhile (fun c => decide (c ≠ '|'))).length := by
        simp only [List.tail_cons]
        omega
      calc flags.take (flags.length - ((stop :: tail).tail.length + 1))
          = (flags.takeWhile (fun c => decide (c ≠ '|')) ++ stop :: tail).take
              (flags.takeWhile (fun c => decide (c ≠ '|'))).length := by rw [front,whole]
        _ = flags.takeWhile (fun c => decide (c ≠ '|')) := List.take_left

theorem newTrigger_covers (flags : Option Str) (handler : Option η) :
    Covers (newTrigger flags type mask command handler) flags := by
  intro flag member
  cases flags with
  | none => simp [requiredFlags] at member
  | some flags =>
      by_cases bar : '|' ∈ flags
      · have split := bar_split bar
        have own : flag ∈ flags.takeWhile (fun c => c ≠ '|') := by
          unfold requiredFlags at member
          dsimp only at member
          split at member
          · cases member
          · exact member
        refine ⟨flags.takeWhile (fun c => c ≠ '|'),?_,own⟩
        have some : flags.length - ((flags.dropWhile (fun c => c ≠ '|')).tail.length + 1) ≠ 0 := by
          intro zero
          rw [zero,List.take_zero] at split
          rw [← split] at own
          cases own
        simp only [newTrigger,bar,if_true]
        rw [if_pos some,split]
      · have plain : flags.takeWhile (fun c => c ≠ '|') = flags := by
          refine List.takeWhile_eq_self_iff.mpr ?_
          intro c here
          simpa using fun same : c = '|' => bar (same ▸ here)
        simp only [requiredFlags,plain] at member
        split at member
        · cases member
        · rename_i dash
          refine ⟨flags,?_,member⟩
          simp only [newTrigger,bar,if_false,dash]

theorem add_type (trigs : TrigTable η) (type : TrigType) (new : Trigger η) :
    (triggerListAdd trigs type new type).items = (trigs type).items ++ [new] := by
  simp [triggerListAdd]

theorem add_other (trigs : TrigTable η) (new : Trigger η) (differ : other ≠ type) :
    triggerListAdd trigs type new other = trigs other := by
  simp [triggerListAdd,differ]

theorem del_other (trigs : TrigTable η) (place : Nat) (differ : other ≠ type) :
    triggerListDel trigs type place other = trigs other := by
  simp [triggerListDel,differ]

theorem unstack_other {trigs : TrigTable η} (differ : other ≠ kind) : unstack trigs kind mask other = trigs other := by
  unfold unstack
  cases (trigs kind).items.findIdx? (fun trigger => tstrcasecmp trigger.mask mask = 0) with
  | none => rfl
  | some place => exact del_other trigs place differ

-- What a bind does to the DCC triggers: one more, without flags, or nothing.
theorem eggBind_dcc (bound : eggBind trigs type flags mask cmd handler = some (after,returned)) :
    (handler.isSome ∧ bindType type = some .dcc ∧
      (after .dcc).items = (trigs .dcc).items ++ [newTrigger none .dcc mask (some cmd) handler]) ∨
    (¬(handler.isSome ∧ bindType type = some .dcc) ∧ after .dcc = trigs .dcc) := by
  unfold eggBind at bound
  cases handler with
  | none =>
      cases Option.some.inj bound
      exact .inr ⟨by simp,rfl⟩
  | some handler =>
      cases kind : bindType type with
      | none =>
          simp only [kind,Option.some.injEq,Prod.mk.injEq] at bound
          exact .inr ⟨by simp,by rw [bound.1]⟩
      | some kind' =>
          simp only [kind] at bound
          split at bound
          · cases Option.some.inj bound
            exact .inr ⟨by simp,by rw [add_other _ _ (by simp),unstack_other (by simp)]⟩
          · cases Option.some.inj bound
            exact .inr ⟨by simp,by rw [add_other _ _ (by simp),unstack_other (by simp)]⟩
          · simp only [Option.bind_eq_bind,Option.bind_eq_some_iff] at bound
            obtain ⟨old,-,bound⟩ := bound
            split at bound
            · cases Option.some.inj bound
              exact .inr ⟨by simp,rfl⟩
            · cases Option.some.inj bound
              exact .inr ⟨by simp,add_other _ _ (by simp)⟩
          · cases Option.some.inj bound
            by_cases dcc : kind' = .dcc
            · subst dcc
              exact .inl ⟨rfl,rfl,add_type _ _ _⟩
            · exact .inr ⟨by simpa using dcc,add_other _ _ (Ne.symm dcc)⟩

end

end Trollbot

import Trollbot.LineIn

namespace Trollbot.LineIsolation
open Framing LineIn

section
variable {σ : Type} [DecidableEq σ]

-- Every socket of one kind is read by the same function, so all of them share its static buffer.
def sharedRun (source : Source) : LineBuf → List (σ × Str) → Option (List (σ × Str) × LineBuf)
  | st,[] => some ([],st)
  | st,(session,s) :: rest => do
    let (lines,next,_) ← source.read st (.bytes s)
    let (more,last) ← sharedRun source next rest
    some (lines.map (fun line => (session,line)) ++ more,last)

def chunksOn (session : σ) (events : List (σ × Str)) : List Str :=
  (events.filter (fun event => event.1 = session)).map Prod.snd

def bytesOn (session : σ) (events : List (σ × Str)) : Str := (chunksOn session events).flatten

def linesOf (session : σ) (handed : List (σ × Str)) : List Str := chunksOn session handed

-- At every read the partial line is tracked, and it is empty or was left by the same session.
def isolatedRun (source : Source) : LineBuf → Option σ → List (σ × Str) → Bool
  | _,_,[] => true
  | st,owner,(session,s) :: rest =>
    tracked st s.length && ((pending st).isEmpty || owner == some session) &&
      match source.read st (.bytes s) with
      | none => false
      | some (_,next,_) => isolatedRun source next (some session) rest

-- The share of a session in the partial line.
def share (session : σ) (owner : Option σ) (st : LineBuf) : Str :=
  if owner = some session then pending st else []

@[simp] theorem chunksOn_append (session : σ) (a b : List (σ × Str)) :
    chunksOn session (a ++ b) = chunksOn session a ++ chunksOn session b := by
  simp [chunksOn]

theorem chunksOn_own (session : σ) (lines : List Str) :
    chunksOn session (lines.map (fun line => (session,line))) = lines := by
  induction lines with
  | nil => rfl
  | cons line rest ih => simpa [chunksOn] using ih

theorem chunksOn_other {session other : σ} (differ : other ≠ session) (lines : List Str) :
    chunksOn session (lines.map (fun line => (other,line))) = [] := by
  simp [chunksOn,differ]

theorem share_own {session : σ} (alone : ((pending st).isEmpty || owner == some session) = true) :
    share session owner st = pending st := by
  by_cases mine : owner = some session
  · simp [share,mine]
  · simp only [beq_iff_eq,mine,List.isEmpty_iff,Bool.or_eq_true,or_false] at alone
    simp [share,mine,alone]

theorem share_other {session other : σ} (differ : other ≠ session)
    (alone : ((pending st).isEmpty || owner == some other) = true) : share session owner st = [] := by
  unfold share
  split
  · rename_i mine
    subst mine
    simpa [Ne.symm differ] using alone
  · rfl

theorem sharedRun_chops (source : Source) (session : σ) (kept : WellKept st)
    (chunks : ∀ event ∈ events, Chunk event.2) (isolated : isolatedRun source st owner events = true) :
    ∃ handed last, sharedRun source st events = some (handed,last) ∧
      linesOf session handed =
        (feedAll isTerm isNewline (share session owner st) (chunksOn session events)).1 := by
  induction events generalizing st owner with
  | nil => exact ⟨[],st,rfl,rfl⟩
  | cons event rest ih =>
      obtain ⟨reader,s⟩ := event
      simp only [isolatedRun,Bool.and_eq_true] at isolated
      obtain ⟨⟨covered,alone⟩,later⟩ := isolated
      obtain ⟨next,step,held,keeps⟩ := read_step source kept (chunks (reader,s) (by simp)) covered
      obtain ⟨handed,last,more,lines⟩ := ih keeps (fun event member => chunks event (by simp [member]))
        (by simpa [step] using later)
      have ran : sharedRun source st ((reader,s) :: rest) = some
          ((chop isTerm isNewline (pending st ++ s)).1.map (fun line => (reader,line)) ++ handed,last) := by
        simp [sharedRun,step,more]
      refine ⟨_,last,ran,?_⟩
      have split : chunksOn session ((reader,s) :: rest) = chunksOn session [(reader,s)] ++ chunksOn session rest :=
        chunksOn_append session [(reader,s)] rest
      rw [linesOf,chunksOn_append,← linesOf.eq_def session handed,lines,split]
      by_cases mine : reader = session
      · subst mine
        rw [chunksOn_own,share_own alone]
        simp [chunksOn,share,feedAll,held]
      · rw [chunksOn_other mine,share_other mine alone]
        simp [chunksOn,share,mine]

theorem session_lines (source : Source) (session : σ) (chunks : ∀ event ∈ events, Chunk event.2)
    (isolated : isolatedRun source .start none events = true) :
    ∃ handed last, sharedRun source .start events = some (handed,last) ∧
      linesOf session handed = (feedAll isTerm isNewline [] (chunksOn session events)).1 ∧
      nonEmpty (linesOf session handed) = frames isTerm isNewline (bytesOn session events) := by
  obtain ⟨handed,last,ran,lines⟩ := sharedRun_chops source session start_kept chunks isolated
  have fresh : share session none .start = [] := rfl
  rw [fresh] at lines
  refine ⟨handed,last,ran,lines,?_⟩
  rw [lines,feedAll_frames newline_isTerm _ _ (by simp)]
  rfl

theorem lines_of_own_bytes (source : Source) (session : σ)
    (chunks : ∀ event ∈ one, Chunk event.2) (otherChunks : ∀ event ∈ two, Chunk event.2)
    (isolated : isolatedRun source .start none one = true) (otherIsolated : isolatedRun source .start none two = true)
    (same : bytesOn session one = bytesOn session two) :
    ∃ handed others last lastOther, sharedRun source .start one = some (handed,last) ∧
      sharedRun source .start two = some (others,lastOther) ∧
      nonEmpty (linesOf session handed) = nonEmpty (linesOf session others) ∧
      (chunksOn session one = chunksOn session two → linesOf session handed = linesOf session others) := by
  obtain ⟨handed,last,ran,lines,framed⟩ := session_lines source session chunks isolated
  obtain ⟨others,lastOther,ranOther,linesOther,framedOther⟩ := session_lines source session otherChunks otherIsolated
  refine ⟨handed,others,last,lastOther,ran,ranOther,?_,?_⟩
  · rw [framed,framedOther,same]
  · intro agree
    rw [lines,linesOther,agree]

end

theorem two_sessions_whole_lines :
    ∃ handed others last lastOther,
      sharedRun .dcc .start [(0,"foo\n".toList),(1,"bar\n".toList)] = some (handed,last) ∧
      sharedRun .dcc .start [(1,"bar\n".toList)] = some (others,lastOther) ∧
      nonEmpty (linesOf 1 handed) = nonEmpty (linesOf 1 others) ∧
      (chunksOn 1 [(0,"foo\n".toList),(1,"bar\n".toList)] = chunksOn 1 [(1,"bar\n".toList)] →
        linesOf 1 handed = linesOf 1 others) :=
  lines_of_own_bytes .dcc 1 (by decide) (by decide) (by decide +kernel) (by decide +kernel) (by decide)

-- The unfinished line of session 0 is handed to the parser as part of session 1's line.
theorem unfinished_line_leaks (source : Source) :
    (sharedRun source .start [(0,"foo".toList),(1,"bar\n".toList)]).map (·.1) = some [(1,"foobar".toList)] := by
  cases source <;> decide +kernel

theorem lone_line (source : Source) :
    (sharedRun source .start [(1,"bar\n".toList)]).map (·.1) = some [(1,"bar".toList)] := by
  cases source <;> decide +kernel

theorem foreign_bytes_change_lines : ¬∀ (source : Source) (session : Nat) (one two : List (Nat × Str)),
    (∀ event ∈ one, Chunk event.2) → (∀ event ∈ two, Chunk event.2) →
    chunksOn session one = chunksOn session two → ∃ handed others last lastOther,
      sharedRun source .start one = some (handed,last) ∧ sharedRun source .start two = some (others,lastOther) ∧
      nonEmpty (linesOf session handed) = nonEmpty (linesOf session others) := by
  intro claim
  obtain ⟨handed,others,last,lastOther,ran,ranOther,same⟩ := claim .dcc 1
    [(0,"foo".toList),(1,"bar\n".toList)] [(1,"bar\n".toList)] (by decide) (by decide) (by decide)
  have leaked := unfinished_line_leaks .dcc
  have alone := lone_line .dcc
  rw [ran,Option.map_some,Option.some.injEq] at leaked
  rw [ranOther,Option.map_some,Option.some.injEq] at alone
  dsimp only at leaked alone
  subst leaked alone
  revert same
  decide

end Trollbot.LineIsolation

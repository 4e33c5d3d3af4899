import Trollbot.Foundation.Framing
import Trollbot.Util

namespace Trollbot.LineIn
open CBuffer Framing

-- irc_in, dcc_in and ics_in keep a partial line in the function's own static variables. Only the
-- low word of `size` is ever looked at, through tcrealloc0's unsigned int pointer.
structure LineBuf where
  buffer : Option Buffer
  size : Nat

def LineBuf.start : LineBuf := ⟨none,bufferSize⟩

inductive Recv where
  | failed
  | closed
  | bytes (s : Str)

-- Allocate or grow the buffer, before recv writes at its first terminator.
def makeRoom (st : LineBuf) : Option (Buffer × Nat × Nat) :=
  match st.buffer with
  | none => some (tmalloc0 (bufferSize + 1),st.size,0)
  | some buffer => do
    let held ← text buffer
    let (grown,size) ← tcrealloc0 buffer (held.length + bufferSize + 1) st.size
    let kept ← text grown
    some (grown,size,kept.length)

def isTerm (c : Char) : Bool := c == '\n' || c == '\r'
def isNewline (c : Char) : Bool := c == '\n'

-- The loop over complete lines. strchr and strlen read the whole buffer as a C string.
def lineLoop : Nat → LineBuf → Option (List Str × LineBuf)
  | 0,_ => none
  | fuel+1,st =>
    match st.buffer with
    | none => some ([],st)
    | some buffer => do
      let held ← text buffer
      if held.any isNewline then
        let line := held.takeWhile (fun c => !isTerm c)
        let ptr := (held.dropWhile (fun c => !isTerm c)).dropWhile isTerm
        if ptr = [] then some ([line],⟨none,st.size⟩) else do
          let (lines,last) ← lineLoop fuel ⟨some (tstrdup ptr),asUnsigned (ptr.length + 1)⟩
          some (line :: lines,last)
      else some ([],st)

-- One call: what recv returned decides the rest. The result is the lines handed to the parser, the
-- static variables afterwards and the function's return value.
def lineIn (freesOnClose : Bool) (st : LineBuf) (received : Recv) : Option (List Str × LineBuf × Nat) := do
  let (buffer,size,pos) ← makeRoom st
  match received with
  | .failed => some ([],⟨none,size⟩,1)
  | .closed => some ([],⟨if freesOnClose then none else some buffer,size⟩,0)
  | .bytes s => do
    let filled ← write buffer pos (s.map some)
    let (lines,last) ← lineLoop (filled.length + 1) ⟨some filled,size⟩
    some (lines,last,1)

def ircIn : LineBuf → Recv → Option (List Str × LineBuf × Nat) := lineIn true
-- dcc_in leaves its buffer in place when the peer closes.
def dccIn : LineBuf → Recv → Option (List Str × LineBuf × Nat) := lineIn false
def icsIn : LineBuf → Recv → Option (List Str × LineBuf × Nat) := lineIn true

inductive Source where
  | irc
  | dcc
  | ics
deriving DecidableEq

def Source.read : Source → LineBuf → Recv → Option (List Str × LineBuf × Nat)
  | .irc => ircIn
  | .dcc => dccIn
  | .ics => icsIn

def lineRun (source : Source) : LineBuf → List Str → Option (List Str × LineBuf)
  | st,[] => some ([],st)
  | st,s :: rest => do
    let (lines,next,_) ← source.read st (.bytes s)
    let (more,last) ← lineRun source next rest
    some (lines ++ more,last)

-- recv is asked for at most BUFFER_SIZE-1 bytes.
def Chunk (s : Str) : Prop := s ≠ [] ∧ s.length < bufferSize ∧ nul ∉ s

def Cut (stream : Str) (chunks : List Str) : Prop := chunks.flatten = stream ∧ ∀ s ∈ chunks, Chunk s

instance : Decidable (Chunk s) := inferInstanceAs (Decidable (_ ∧ _ ∧ _))
instance : Decidable (Cut stream chunks) := inferInstanceAs (Decidable (_ ∧ _))

-- The text of the partial line.
def pending (st : LineBuf) : Str := (st.buffer.bind text).getD []

-- The recorded size covers the partial line, and the byte after the `n` bytes about to arrive is
-- zeroed by tcrealloc0 or was zero before.
def tracked (st : LineBuf) (n : Nat) : Bool :=
  match st.buffer with
  | none => true
  | some buffer =>
    let held := (pending st).length
    decide (held < st.size) && (decide (st.size ≤ held + n + 1) || buffer[held + n]? == some (some nul))

def trackedRun (source : Source) : LineBuf → List Str → Bool
  | _,[] => true
  | st,s :: rest =>
    tracked st s.length &&
      match source.read st (.bytes s) with
      | none => false
      | some (_,next,_) => trackedRun source next rest

def WellKept (st : LineBuf) : Prop :=
  ∀ buffer, st.buffer = some buffer → ∃ held, text buffer = some held ∧ buffer.length ≤ held.length + bufferSize + 1

theorem start_kept : WellKept .start := by
  intro buffer some
  cases some

theorem newline_isTerm : ∀ c, isNewline c = true → isTerm c = true := by
  intro c newline
  simp_all [isNewline,isTerm]

theorem makeRoom_fresh : makeRoom ⟨none,size⟩ = some (zeroed (bufferSize + 1),size,0) := rfl

section
variable {buffer : Buffer} {held s : Str} {size : Nat}

theorem tracked_iff (read : text buffer = some held) : tracked ⟨some buffer,size⟩ n = true ↔
    held.length < size ∧ (size ≤ held.length + n + 1 ∨ buffer[held.length + n]? = some (some nul)) := by
  simp [tracked,pending,read]

theorem room_text (read : text buffer = some held)
    (grew : tcrealloc0 buffer (held.length + bufferSize + 1) size = some (grown,after))
    (covered : held.length < size) : text grown = some held := by
  obtain ⟨clean,cells,stop⟩ := cells_of_text read
  have bound := text_bound read
  refine text_of_cells clean ?_ ?_
  · intro i c found
    have inside := (List.getElem?_eq_some_iff.mp found).1
    rw [grow_get (tcrealloc0_grows grew) (by omega),if_neg (by omega),if_pos (by omega)]
    exact cells i c found
  · rw [grow_get (tcrealloc0_grows grew) (by omega)]
    by_cases cleared : size ≤ held.length + 1 ∧ held.length + 1 < held.length + bufferSize + 1
    · rw [if_pos cleared]
    · rw [if_neg cleared,if_pos bound]
      exact stop

-- A recorded size inside the partial line makes the memset cut the line short.
theorem short_text (read : text buffer = some held)
    (grew : tcrealloc0 buffer (held.length + bufferSize + 1) size = some (grown,after))
    (positive : 0 < size) (inside : size ≤ held.length) : text grown = some (held.take (size - 1)) := by
  obtain ⟨clean,cells,_⟩ := cells_of_text read
  have bound := text_bound read
  have length : (held.take (size - 1)).length = size - 1 := by simp; omega
  refine text_of_cells (fun member => clean (List.mem_of_mem_take member)) ?_ ?_
  · intro i c found
    have early := (List.getElem?_eq_some_iff.mp found).1
    rw [List.getElem?_take_of_lt (by omega)] at found
    rw [grow_get (tcrealloc0_grows grew) (by omega),if_neg (by omega),if_pos (by omega)]
    exact cells i c found
  · rw [length,grow_get (tcrealloc0_grows grew) (by omega),if_pos (by omega)]

-- The cells after recv wrote `s` at the end of a partial line that tcrealloc0 kept.
theorem received_cells (grown : Buffer) (written : write grown held.length (s.map some) = some filled)
    (keeps : text grown = some held) (clean : nul ∉ s) :
    text filled = some (held ++ s) ↔ grown[held.length + s.length]? = some (some nul) := by
  obtain ⟨heldClean,cells,_⟩ := cells_of_text keeps
  have last : filled[(held ++ s).length]? = grown[held.length + s.length]? := by
    rw [List.length_append,write_get written,if_neg (by simp)]
  constructor
  · intro read
    rw [← last]
    exact (cells_of_text read).2.2
  · intro stop
    refine text_of_cells (by simp [heldClean,clean]) ?_ (last.trans stop)
    intro i c found
    rw [write_get written]
    by_cases early : i < held.length
    · rw [List.getElem?_append_left early] at found
      rw [if_neg (by omega)]
      exact cells i c found
    · rw [List.getElem?_append_right (by omega)] at found
      have inside := (List.getElem?_eq_some_iff.mp found).1
      rw [if_pos (by simp; omega),List.getElem?_map,found]
      rfl

end

-- What one recv leaves in the buffer.
def receive (st : LineBuf) (s : Str) : Option (Buffer × Nat) := do
  let (buffer,size,pos) ← makeRoom st
  let filled ← write buffer pos (s.map some)
  some (filled,size)

theorem receive_exact (kept : WellKept st) (chunk : Chunk s) :
    (∃ filled size, receive st s = some (filled,size) ∧ text filled = some (pending st ++ s)) ↔
      tracked st s.length = true := by
  obtain ⟨-,short,clean⟩ := chunk
  obtain ⟨buffer,size⟩ := st
  cases buffer with
  | none =>
      have empty : text (zeroed (bufferSize + 1)) = some [] := by
        refine text_of_cells (by simp) (by simp) ?_
        exact zeroed_get (by decide)
      obtain ⟨filled,written⟩ := write_fits (zeroed (bufferSize + 1)) 0 (s.map some)
        (by simp; omega)
      have stop : (zeroed (bufferSize + 1))[([] : Str).length + s.length]? = some (some nul) := by
        simpa using zeroed_get (by omega)
      have read := (received_cells _ written empty clean).mpr stop
      simp [receive,makeRoom_fresh,written,tracked,pending,read]
  | some buffer =>
      obtain ⟨held,read,-⟩ := kept buffer rfl
      have holds : pending ⟨some buffer,size⟩ = held := by simp [pending,read]
      have nonNul : ∀ i : Nat, (held ++ s)[i]? ≠ some nul := by
        intro i found
        rcases List.mem_append.mp (List.mem_of_getElem? found) with old | new
        · exact (cells_of_text read).1 old
        · exact clean new
      rw [tracked_iff read,holds]
      rcases Nat.eq_zero_or_pos size with zero | positive
      · subst zero
        have wraps : tcrealloc0 buffer (held.length + bufferSize + 1) 0 = none := by simp [tcrealloc0,grow]
        simp [receive,makeRoom,read,wraps]
      obtain ⟨grown,grew⟩ := tcrealloc0_runs buffer (held.length + bufferSize + 1) positive
      have long := grow_length (tcrealloc0_grows grew)
      by_cases covered : held.length < size
      · have keeps := room_text read grew covered
        obtain ⟨filled,written⟩ := write_fits grown held.length (s.map some)
          (by simp; omega)
        have result : receive ⟨some buffer,size⟩ s = some (filled,asUnsigned (held.length + bufferSize + 1)) := by
          simp [receive,makeRoom,read,grew,keeps,written]
        have stop : grown[held.length + s.length]? = some (some nul) ↔
            size ≤ held.length + s.length + 1 ∨ buffer[held.length + s.length]? = some (some nul) := by
          rw [grow_get (tcrealloc0_grows grew) (by omega)]
          by_cases cleared : size ≤ held.length + s.length + 1
          · rw [if_pos (by omega)]
            simp [cleared]
          · rw [if_neg (by omega)]
            by_cases old : held.length + s.length < buffer.length
            · simp [old,cleared]
            · simp [old,cleared]
        rw [result]
        simpa [covered,stop] using received_cells grown written keeps clean
      · -- the memset already overwrote the end of the partial line
        have keeps := short_text read grew positive (by omega)
        have cut : (held.take (size - 1)).length = size - 1 := by simp; omega
        refine ⟨?_,fun fits => absurd fits.1 covered⟩
        rintro ⟨_,after,result,whole⟩
        simp only [receive,makeRoom,read,grew,keeps,cut,Option.bind_eq_bind,Option.bind_some,
          Option.bind_eq_some_iff,Option.some.injEq,Prod.mk.injEq] at result
        obtain ⟨filled,written,rfl,-⟩ := result
        have cleared : filled[size - 1 + s.length]? = some (some nul) := by
          rw [write_get written,if_neg (by simp),grow_get (tcrealloc0_grows grew) (by omega),if_pos (by omega)]
        have inLine : size - 1 + s.length < (held ++ s).length := by simp; omega
        have found := (cells_of_text whole).2.1 _ _ (List.getElem?_eq_getElem inLine)
        rw [cleared] at found
        simp only [Option.some.injEq] at found
        exact absurd (found ▸ List.getElem?_eq_getElem inLine) (nonNul _)

theorem receive_length (result : receive st s = some (filled,size)) :
    filled.length = (pending st).length + bufferSize + 1 := by
  obtain ⟨buffer,recorded⟩ := st
  cases buffer with
  | none =>
      simp only [receive,makeRoom_fresh,Option.bind_eq_bind,Option.bind_some,Option.bind_eq_some_iff,
        Option.some.injEq,Prod.mk.injEq] at result
      obtain ⟨_,written,rfl,-⟩ := result
      simp [write_length written,pending]
  | some buffer =>
      simp only [receive,makeRoom,Option.bind_eq_bind,Option.bind_eq_some_iff,Option.some.injEq,
        Prod.mk.injEq] at result
      obtain ⟨_,⟨held,read,⟨grown,_⟩,grew,kept,_,rfl⟩,after,written,rfl,-⟩ := result
      simp [write_length written,grow_length (tcrealloc0_grows grew),pending,read]

theorem lineIn_bytes : lineIn frees st (.bytes s) = (receive st s).bind (fun filled =>
    (lineLoop (filled.1.length + 1) ⟨some filled.1,filled.2⟩).map (fun done => (done.1,done.2,1))) := by
  cases room : makeRoom st with
  | none => simp [lineIn,receive,room]
  | some made =>
      cases written : write made.1 made.2.2 (s.map some) with
      | none => simp [lineIn,receive,room,written]
      | some filled =>
          simp only [lineIn,receive,room,written,Option.bind_eq_bind,Option.bind_some]
          cases lineLoop (filled.length + 1) ⟨some filled,made.2.1⟩ <;> rfl

theorem lineLoop_quiet (read : text buffer = some held) (quiet : held.any isNewline = false) :
    lineLoop (fuel+1) ⟨some buffer,size⟩ = some ([],⟨some buffer,size⟩) := by
  simp only [lineLoop,read,quiet,Option.bind_eq_bind,Option.bind_some,Bool.false_eq_true,if_false]

theorem lineLoop_found (read : text buffer = some held) (found : held.any isNewline = true) :
    lineLoop (fuel+1) ⟨some buffer,size⟩ =
      if afterLine isTerm held = [] then some ([lineOf isTerm held],⟨none,size⟩)
      else (lineLoop fuel ⟨some (tstrdup (afterLine isTerm held)),asUnsigned ((afterLine isTerm held).length + 1)⟩).map
        (fun later => (lineOf isTerm held :: later.1,later.2)) := by
  have rest : (held.dropWhile (fun c => !isTerm c)).dropWhile isTerm = afterLine isTerm held := rfl
  have line : held.takeWhile (fun c => !isTerm c) = lineOf isTerm held := rfl
  simp only [lineLoop,read,found,Option.bind_eq_bind,Option.bind_some,if_true,rest,line]
  by_cases done : afterLine isTerm held = []
  · simp only [done,if_true]
  · simp only [done,if_false]
    cases lineLoop fuel ⟨some (tstrdup (afterLine isTerm held)),_⟩ <;> rfl

theorem lineLoop_chop (fuel size : Nat) (read : text buffer = some held) (enough : held.length < fuel)
    (room : buffer.length ≤ held.length + bufferSize + 1) :
    ∃ last, lineLoop fuel ⟨some buffer,size⟩ = some ((chop isTerm isNewline held).1,last) ∧
      pending last = (chop isTerm isNewline held).2 ∧ WellKept last := by
  induction fuel generalizing buffer held size with
  | zero => omega
  | succ fuel ih =>
      cases found : held.any isNewline with
      | false =>
          rw [chop_quiet isTerm isNewline found,lineLoop_quiet read found]
          refine ⟨⟨some buffer,size⟩,rfl,by simp [pending,read],?_⟩
          intro b same
          cases same
          exact ⟨held,read,room⟩
      | true =>
          have shorter := afterLine_shorter isTerm (any_sep newline_isTerm found)
          rw [chop_found newline_isTerm found,lineLoop_found read found]
          by_cases done : afterLine isTerm held = []
          · refine ⟨⟨none,size⟩,?_,by simp [pending,done,chop,chopN],by rintro _ ⟨⟩⟩
            simp [done,chop,chopN]
          · have clean : nul ∉ afterLine isTerm held := by
              intro member
              have inHeld := (List.dropWhile_suffix _).mem ((List.dropWhile_suffix _).mem member)
              exact (cells_of_text read).1 inHeld
            obtain ⟨last,loops,rest,kept⟩ := ih (asUnsigned ((afterLine isTerm held).length + 1))
              (text_ofText clean) (by omega) (by simp [bufferSize])
            exact ⟨last,by simp [done,tstrdup,loops],rest,kept⟩

theorem lineIn_step (frees : Bool) (kept : WellKept st) (chunk : Chunk s) (covered : tracked st s.length = true) :
    ∃ next, lineIn frees st (.bytes s) = some ((chop isTerm isNewline (pending st ++ s)).1,next,1) ∧
      pending next = (chop isTerm isNewline (pending st ++ s)).2 ∧ WellKept next := by
  obtain ⟨filled,size,result,read⟩ := (receive_exact kept chunk).mpr covered
  have length := receive_length result
  have bound := text_bound read
  obtain ⟨next,loops,rest,keeps⟩ := lineLoop_chop (filled.length + 1) size read
    (by omega) (by simp; omega)
  exact ⟨next,by simp [lineIn_bytes,result,loops],rest,keeps⟩

theorem read_step (source : Source) (kept : WellKept st) (chunk : Chunk s)
    (covered : tracked st s.length = true) :
    ∃ next, source.read st (.bytes s) = some ((chop isTerm isNewline (pending st ++ s)).1,next,1) ∧
      pending next = (chop isTerm isNewline (pending st ++ s)).2 ∧ WellKept next := by
  cases source with
  | irc => exact lineIn_step true kept chunk covered
  | dcc => exact lineIn_step false kept chunk covered
  | ics => exact lineIn_step true kept chunk covered

theorem lineRun_chops (kept : WellKept st) (chunks : ∀ s ∈ parts, Chunk s)
    (covered : trackedRun source st parts = true) :
    ∃ last, lineRun source st parts = some ((feedAll isTerm isNewline (pending st) parts).1,last) := by
  induction parts generalizing st with
  | nil => exact ⟨st,rfl⟩
  | cons s rest ih =>
      simp only [trackedRun,Bool.and_eq_true] at covered
      obtain ⟨next,step,held,keeps⟩ := read_step source kept (chunks s (by simp)) covered.1
      obtain ⟨last,more⟩ := ih keeps (fun t member => chunks t (by simp [member])) (by simpa [step] using covered.2)
      exact ⟨last,by simp [lineRun,step,more,feedAll,held]⟩

theorem lineRun_frames (cut : Cut stream parts) (covered : trackedRun source .start parts = true) :
    ∃ lines last, lineRun source .start parts = some (lines,last) ∧
      nonEmpty lines = frames isTerm isNewline stream := by
  obtain ⟨last,ran⟩ := lineRun_chops start_kept cut.2 covered
  refine ⟨_,last,ran,?_⟩
  rw [feedAll_frames newline_isTerm _ _ (by simp [pending,LineBuf.start]),cut.1]
  rfl

theorem lines_whatever_the_cut (source : Source) (first : Cut stream one) (second : Cut stream two)
    (coveredFirst : trackedRun source .start one = true) (coveredSecond : trackedRun source .start two = true) :
    ∃ lines others last lastOther, lineRun source .start one = some (lines,last) ∧
      lineRun source .start two = some (others,lastOther) ∧
      nonEmpty lines = frames isTerm isNewline stream ∧ nonEmpty others = nonEmpty lines := by
  obtain ⟨lines,last,ran,framed⟩ := lineRun_frames first coveredFirst
  obtain ⟨others,lastOther,ranOther,framedOther⟩ := lineRun_frames second coveredSecond
  exact ⟨lines,others,last,lastOther,ran,ranOther,framed,framedOther.trans framed.symm⟩

theorem two_cuts_one_stream :
    ∃ lines others last lastOther,
      lineRun .ics .start ["a\nb".toList,"c\n".toList] = some (lines,last) ∧
      lineRun .ics .start ["a\n".toList,"bc\n".toList] = some (others,lastOther) ∧
      nonEmpty lines = frames isTerm isNewline "a\nbc\n".toList ∧ nonEmpty others = nonEmpty lines :=
  lines_whatever_the_cut .ics (by decide) (by decide)
    (by decide +kernel) (by decide +kernel)

-- "ab\ncd\n" leaves a recorded size of 4 behind, so the ten bytes that follow lose all but three.
theorem stale_size_truncates (source : Source) :
    ((lineRun source .start ["ab\ncd\n".toList,"0123456789".toList,"XYZ\n".toList]).map (·.1)) =
      some ["ab".toList,"cd".toList,"012XYZ".toList] := by
  cases source <;> decide +kernel

theorem whole_line_kept (source : Source) :
    ((lineRun source .start ["ab\ncd\n".toList,"0123456789XYZ\n".toList]).map (·.1)) =
      some ["ab".toList,"cd".toList,"0123456789XYZ".toList] := by
  cases source <;> decide +kernel

theorem cut_changes_lines : ¬∀ (source : Source) (stream : Str) (one two : List Str),
    Cut stream one → Cut stream two → ∃ lines others last lastOther,
      lineRun source .start one = some (lines,last) ∧ lineRun source .start two = some (others,lastOther) ∧
      nonEmpty others = nonEmpty lines := by
  intro claim
  obtain ⟨lines,others,last,lastOther,ran,ranOther,same⟩ := claim .irc "ab\ncd\n0123456789XYZ\n".toList
    ["ab\ncd\n".toList,"0123456789".toList,"XYZ\n".toList] ["ab\ncd\n".toList,"0123456789XYZ\n".toList]
    (by decide) (by decide)
  have cutLines := stale_size_truncates .irc
  have wholeLines := whole_line_kept .irc
  rw [ran,Option.map_some,Option.some.injEq] at cutLines
  rw [ranOther,Option.map_some,Option.some.injEq] at wholeLines
  dsimp only at cutLines wholeLines
  subst cutLines wholeLines
  revert same
  decide

end Trollbot.LineIn

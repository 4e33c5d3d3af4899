import Mathlib.Algebra.Ring.Nat
import Trollbot.Foundation.Machine
import Trollbot.ScriptLists

-- The arrays of words that parse_irc_line fills, in bytes, and the memory that the words' copies take.
namespace Trollbot.IrcSlots
open CBuffer Machine Tssv
open ScriptLists (Block)

-- bufsize is an unsigned int. `held` is what the array and the copies of its words take in memory.
structure Filling where
  block : Block
  bufindex : Nat
  bufsize : Nat
  held : Nat

-- At the loop's test, and behind a space when the index has moved on.
inductive Place where
  | scan
  | word
deriving DecidableEq

-- `text` is the memory from buffer[m] on, past the terminator, and `last` the character before it.
structure Loop where
  place : Place
  last : Char
  text : Str
  array : Option Filling

def strlen (text : Str) : Nat := (text.takeWhile (fun c => c != nul)).length

-- `malloc` says whether there are another `size` bytes where so many are held already.
section
variable (malloc : Nat → Nat → Bool)

-- tmalloc0 clears what malloc gives it, NULL as well.
def tmalloc0 (held size : Nat) : Option Nat := if malloc held size then some (held + size) else none

-- The array, its first word and the string of all words.
def Filling.new (text : Str) : Option Filling := do
  let held ← tmalloc0 malloc 0 (sizeofPointer * 10)
  let held ← tmalloc0 malloc held (strlen text + 1)
  let held ← tmalloc0 malloc held (strlen text + 1)
  some ⟨⟨sizeofPointer * 10,some (some []) :: List.replicate 9 (some none)⟩,0,sizeofPointer * 10,held⟩

-- A failed realloc ends the program.
def Filling.advance (t : Filling) : Option Filling :=
  let bufindex := t.bufindex + 1
  if (bufindex + 1) * sizeofPointer = t.bufsize then do
    let (block,bufsize) ← ScriptLists.tsrealloc0 t.block (sizeofPointer * (bufindex + 10 + 1)) t.bufsize
    let held ← tmalloc0 malloc (t.held - t.block.bytes) block.bytes
    some ⟨block,bufindex,bufsize,held⟩
  else some { t with bufindex := bufindex }

def Filling.openWord (text : Str) (t : Filling) : Option Filling := do
  let held ← tmalloc0 malloc t.held (strlen text + 1)
  let cells ← write t.block.cells t.bufindex [some (some []),some none]
  some { t with block := { t.block with cells := cells }, held := held }

def Filling.put (t : Filling) (c : Char) : Option Filling :=
  match t.block.cells[t.bufindex]? with
  | some (some (some word)) =>
    some { t with block := { t.block with cells := t.block.cells.set t.bufindex (some (some (word ++ [c]))) } }
  | _ => none

-- `middle` marks the loop over the parameters.
variable (middle : Bool)

def stops (last c : Char) : Bool := c == nul || c == '\n' || c == '\r' || (middle && c == ':' && last == ' ')
def breaks (c : Char) : Bool := c == '\r' || c == '\n' || c == (if middle then ':' else nul)

def go (st : Option Loop) : Outcome Loop (Option Filling × Str) := st.elim .fault .next

def Loop.filling (st : Loop) : Option Filling := st.array.orElse (fun _ => Filling.new malloc st.text)

def scanStep (st : Loop) (c : Char) (rest : Str) : Outcome Loop (Option Filling × Str) :=
  if stops middle st.last c then .done (st.array,st.text)
  else if c = ' ' then go (((st.filling malloc).bind (Filling.advance malloc)).map (fun t => ⟨.word,' ',rest,some t⟩))
  else go (((st.filling malloc).bind (fun t => t.put c)).map (fun t => ⟨.scan,c,rest,some t⟩))

def wordStep (st : Loop) (d : Char) (rest : Str) : Outcome Loop (Option Filling × Str) :=
  if breaks middle d then .done (st.array,st.text)
  else go ((st.array.bind (fun t => (t.openWord malloc st.text).bind (fun t => t.put d))).map (fun t => ⟨.scan,d,rest,some t⟩))

def fillStep (st : Loop) : Outcome Loop (Option Filling × Str) :=
  match st.text,st.place with
  | [],_ => .fault
  | c :: rest,.scan => scanStep malloc middle st c rest
  | d :: rest,.word => wordStep malloc middle st d rest

def Loop.start (last : Char) (text : Str) : Loop := ⟨.scan,last,text,none⟩

-- The slot after the last stored word.
def Loop.after (st : Loop) (t : Filling) : Nat :=
  match st.place with
  | .scan => t.bufindex + 1
  | .word => t.bufindex

-- The index has a slot behind it, and where the loop ends the slot after the last word is NULL.
structure Safe (st : Loop) : Prop where
  room : ∀ t, st.array = some t → t.bufindex + 1 < t.block.cells.length
  ended : ∀ result, fillStep malloc middle st = .done result → ∀ t, st.array = some t → t.block.cells[st.after t]? = some (some none)

end

-- The addresses of a 64-bit machine have 57 bits that count.
def addresses : Nat := 2 ^ 57

-- malloc hands out no more bytes than there are addresses.
def Bounded (malloc : Nat → Nat → Bool) : Prop := ∀ held size, malloc held size = true → held + size ≤ addresses

def slotsAt (index : Nat) : Nat := 10 * ((index + 1) / 10 + 1)

structure Grown (t : Filling) : Prop where
  cells : t.block.cells.length = slotsAt t.bufindex
  size : t.bufsize = sizeofPointer * slotsAt t.bufindex
  bytes : t.block.bytes = t.bufsize

structure Opened (t : Filling) : Prop extends Grown t where
  after : t.block.cells[t.bufindex + 1]? = some (some none)

structure Waiting (t : Filling) : Prop extends Grown t where
  here : t.block.cells[t.bufindex]? = some (some none)

-- The copies of `words` words besides the array: every one of them reaches over what is left and over
-- the words behind it.
structure Copies (words left : Nat) (t : Filling) : Prop where
  fill : t.block.bytes + words * (left + words) ≤ t.held + words
  inside : t.held ≤ addresses

-- Text with no terminator in it, and terminators.
def Zeroed (text : Str) : Prop := ∃ line n, nul ∉ line ∧ text = line ++ List.replicate n nul

structure Good (st : Loop) : Prop where
  zeroed : Zeroed st.text
  scan : st.place = .scan → ∀ t, st.array = some t → Opened t ∧ (0 < strlen st.text → Copies t.bufindex (strlen st.text) t)
  word : st.place = .word → ∃ t words, st.array = some t ∧ t.bufindex = words + 1 ∧ Waiting t ∧ Copies words (strlen st.text + 1) t

theorem Grown.room (grown : Grown t) : t.bufindex + 1 < t.block.cells.length := by
  rw [grown.cells,slotsAt]
  omega

theorem strlen_cons (clear : c ≠ nul) (text : Str) : strlen (c :: text) = strlen text + 1 := by simp [strlen,clear]

theorem zeroed_rest (zeroed : Zeroed (c :: rest)) : Zeroed rest ∧ (c = nul → strlen rest = 0) := by
  obtain ⟨line,n,clean,parts⟩ := zeroed
  cases line with
  | nil =>
      cases n with
      | zero => cases parts
      | succ n =>
          obtain ⟨rfl,rfl⟩ := List.cons.inj parts
          refine ⟨⟨[],n,by simp,rfl⟩,fun _ => ?_⟩
          cases n <;> simp [strlen,List.replicate_succ]
  | cons d line =>
      obtain ⟨rfl,rfl⟩ := List.cons.inj parts
      exact ⟨⟨line,n,fun member => clean (List.mem_cons_of_mem _ member),rfl⟩,fun same => absurd (by simp [same]) clean⟩

-- So many words have more bytes than there are.
theorem few_words (copies : Copies words left t) : words < 536870800 := by
  have fill := copies.fill
  have inside := copies.inside
  rw [addresses] at inside
  by_contra many
  have more : 536870800 * words ≤ words * (left + words) := Nat.mul_le_mul (by omega) (by omega) |>.trans (Nat.mul_comm _ _).le
  omega

section
variable {malloc : Nat → Nat → Bool} (bounded : Bounded malloc) {middle : Bool} {st : Loop}
include bounded

theorem malloc_bound (given : tmalloc0 malloc held size = some total) : total = held + size ∧ total ≤ addresses := by
  unfold tmalloc0 at given
  split at given
  · rename_i granted
    cases given
    exact ⟨rfl,bounded held size granted⟩
  · cases given

theorem new_opened (made : Filling.new malloc memory = some t) : Opened t ∧ Copies t.bufindex (strlen memory) t := by
  obtain ⟨array,arrayGiven,made⟩ := Option.bind_eq_some_iff.mp made
  obtain ⟨first,firstGiven,made⟩ := Option.bind_eq_some_iff.mp made
  obtain ⟨all,allGiven,made⟩ := Option.bind_eq_some_iff.mp made
  cases made
  obtain ⟨rfl,-⟩ := malloc_bound bounded arrayGiven
  obtain ⟨rfl,-⟩ := malloc_bound bounded firstGiven
  obtain ⟨rfl,inside⟩ := malloc_bound bounded allGiven
  exact ⟨⟨⟨by simp [slotsAt],by simp [slotsAt],rfl⟩,rfl⟩,⟨by simp only; omega,inside⟩⟩

theorem filling_opened (good : Good ⟨.scan,last,memory,array⟩) (left : 0 < strlen memory)
    (made : (Loop.mk .scan last memory array).filling malloc = some t) : Opened t ∧ Copies t.bufindex (strlen memory) t := by
  cases array with
  | none => exact new_opened bounded made
  | some t' =>
      cases made
      obtain ⟨opened,copies⟩ := good.scan rfl t rfl
      exact ⟨opened,copies left⟩

omit bounded in
theorem clear_cell (cells : Slots) (i : Nat) (inside : i < cells.length) (first : start ≤ sizeofPointer * i)
    (last : sizeofPointer * (i + 1) ≤ stop) : (ScriptLists.clear start stop cells)[i]? = some (some none) := by
  rw [ScriptLists.clear,List.getElem?_mapIdx,List.getElem?_eq_getElem inside,Option.map_some,if_pos ⟨first,last⟩]

-- The array grows when the index comes to its last slot.
theorem advance_waiting (opened : Opened t) (copies : Copies t.bufindex left t) (advanced : t.advance malloc = some next) :
    next.bufindex = t.bufindex + 1 ∧ Waiting next ∧ Copies t.bufindex left next := by
  have few := few_words copies
  have cells := opened.cells
  have size := opened.size
  have bytes := opened.bytes
  simp only [slotsAt,sizeofPointer] at size cells
  unfold Filling.advance at advanced
  by_cases full : (t.bufindex + 1 + 1) * sizeofPointer = t.bufsize
  · rw [if_pos full] at advanced
    have whole : t.bufsize = 8 * (t.bufindex + 2) := by
      simp only [sizeofPointer] at full
      omega
    obtain ⟨last,ends⟩ : ∃ k, t.bufindex + 2 = 10 * (k + 1) := ⟨(t.bufindex + 1) / 10,by omega⟩
    have length : t.block.cells.length = t.bufindex + 2 := by omega
    have grows : ScriptLists.tsrealloc0 t.block (sizeofPointer * (t.bufindex + 1 + 10 + 1)) t.bufsize =
        some (⟨sizeofPointer * (t.bufindex + 12),ScriptLists.clear (8 * (t.bufindex + 1)) (8 * (t.bufindex + 11)) (resize t.block.cells (t.bufindex + 12))⟩,
          sizeofPointer * (t.bufindex + 12)) := by
      have quotient : t.bufsize / 8 = t.bufindex + 2 := by omega
      have capacity : 8 * (t.bufindex + 1 + 10 + 1) / 8 = t.bufindex + 12 := by omega
      have stop : 8 * (t.bufindex + 2 - 1) + (8 * (t.bufindex + 1 + 10 + 1) - t.bufsize) = 8 * (t.bufindex + 11) := by omega
      have kept : asUnsigned (8 * (t.bufindex + 1 + 10 + 1)) = 8 * (t.bufindex + 12) := by
        rw [asUnsigned,Nat.mod_eq_of_lt (by omega)]
      simp only [ScriptLists.tsrealloc0,sizeofPointer,quotient,capacity,stop,kept]
      rw [if_pos (by omega),if_neg (by omega)]
      rfl
    rw [grows] at advanced
    simp only [Option.bind_eq_bind,Option.bind_some] at advanced
    obtain ⟨held,given,made⟩ := Option.bind_eq_some_iff.mp advanced
    cases made
    obtain ⟨rfl,inside⟩ := malloc_bound bounded given
    refine ⟨rfl,⟨⟨?_,?_,rfl⟩,?_⟩,⟨?_,inside⟩⟩
    · simp only [ScriptLists.clear,List.length_mapIdx,resize_length,slotsAt]
      omega
    · simp only [slotsAt,sizeofPointer]
      omega
    · apply clear_cell
      · simp only [resize_length]
        omega
      · simp only [sizeofPointer]
        omega
      · simp only [sizeofPointer]
        omega
    · have fill := copies.fill
      simp only
      omega
  · rw [if_neg full] at advanced
    cases advanced
    have same : (t.bufindex + 1 + 1) / 10 = (t.bufindex + 1) / 10 := by
      simp only [sizeofPointer] at full
      omega
    refine ⟨rfl,⟨⟨?_,?_,bytes⟩,opened.after⟩,⟨copies.fill,copies.inside⟩⟩
    · simp only [cells,slotsAt,same]
    · simp only [size,slotsAt,sizeofPointer,same]

omit bounded in
theorem put_opened (opened : Opened t) (put : t.put c = some next) :
    Opened next ∧ next.bufindex = t.bufindex ∧ next.block.bytes = t.block.bytes ∧ next.held = t.held := by
  unfold Filling.put at put
  split at put
  · cases put
    refine ⟨⟨⟨?_,opened.size,opened.bytes⟩,?_⟩,rfl,rfl,rfl⟩
    · simpa using opened.cells
    · simpa using opened.after
  · cases put

-- A word is another copy of all that is left.
theorem open_waiting (waiting : Waiting t) (here : t.bufindex = words + 1) (copies : Copies words (strlen memory + 1) t)
    (opens : t.openWord malloc memory = some next) :
    Opened next ∧ next.bufindex = words + 1 ∧ (∀ left, left + 1 ≤ strlen memory → Copies (words + 1) left next) := by
  obtain ⟨held,given,opens⟩ := Option.bind_eq_some_iff.mp opens
  obtain ⟨cells,written,made⟩ := Option.bind_eq_some_iff.mp opens
  cases made
  obtain ⟨rfl,inside⟩ := malloc_bound bounded given
  refine ⟨⟨⟨?_,waiting.size,waiting.bytes⟩,?_⟩,here,?_⟩
  · simpa [write_length written] using waiting.cells
  · simp [write_get written]
  · intro left fewer
    refine ⟨?_,inside⟩
    have fill := copies.fill
    have more : (words + 1) * (left + (words + 1)) ≤ words * (strlen memory + 1 + words) + strlen memory := by
      have wider := Nat.mul_le_mul_left (words + 1) (show left + (words + 1) ≤ strlen memory + words by omega)
      have whole : (words + 1) * (strlen memory + words) = words * (strlen memory + words) + (strlen memory + words) := Nat.succ_mul _ _
      have split : words * (strlen memory + 1 + words) = words * (strlen memory + words) + words := by
        rw [Nat.add_right_comm,Nat.mul_succ]
      omega
    simp only
    omega

theorem scan_good (good : Good ⟨.scan,last,c :: rest,array⟩) (taken : scanStep malloc middle ⟨.scan,last,c :: rest,array⟩ c rest = .next later) :
    Good later := by
  have zeroed := good.zeroed
  unfold scanStep at taken
  split at taken
  · cases taken
  · rename_i on
    have clear : c ≠ nul := by
      rintro rfl
      exact on (by simp [stops])
    have left := strlen_cons clear rest
    split at taken
    · cases advances : ((Loop.mk .scan last (c :: rest) array).filling malloc).bind (Filling.advance malloc) with
      | none =>
          rw [advances] at taken
          cases taken
      | some t =>
          rw [advances] at taken
          cases taken
          obtain ⟨t',made,advanced⟩ := Option.bind_eq_some_iff.mp advances
          obtain ⟨opened,copies⟩ := filling_opened bounded good (by omega) made
          obtain ⟨index,waiting,copies⟩ := advance_waiting bounded opened copies advanced
          rw [left] at copies
          exact ⟨(zeroed_rest zeroed).1,nofun,fun _ => ⟨t,t'.bufindex,rfl,index,waiting,copies⟩⟩
    · cases puts : ((Loop.mk .scan last (c :: rest) array).filling malloc).bind (fun t => t.put c) with
      | none =>
          rw [puts] at taken
          cases taken
      | some t =>
          rw [puts] at taken
          cases taken
          obtain ⟨t',made,put⟩ := Option.bind_eq_some_iff.mp puts
          obtain ⟨opened,copies⟩ := filling_opened bounded good (by omega) made
          obtain ⟨opened,index,bytes,held⟩ := put_opened opened put
          refine ⟨(zeroed_rest zeroed).1,?_,nofun⟩
          rintro - _ ⟨⟩
          refine ⟨opened,fun _ => ?_⟩
          have fill := copies.fill
          have more := Nat.mul_le_mul_left t'.bufindex (show strlen rest + t'.bufindex ≤ strlen (c :: rest) + t'.bufindex by omega)
          rw [index]
          refine ⟨?_,by rw [held]; exact copies.inside⟩
          rw [bytes,held]
          exact (Nat.add_le_add_left more _).trans fill

theorem word_good (good : Good ⟨.word,last,d :: rest,array⟩) (taken : wordStep malloc middle ⟨.word,last,d :: rest,array⟩ d rest = .next later) :
    Good later := by
  obtain ⟨zeroed,over'⟩ := zeroed_rest good.zeroed
  obtain ⟨t,words,same,here,waiting,copies⟩ := good.word rfl
  cases same
  unfold wordStep at taken
  split at taken
  · cases taken
  · cases puts : (t.openWord malloc (d :: rest)).bind (fun t => t.put d) with
    | none =>
        rw [Option.bind_some,puts] at taken
        cases taken
    | some next =>
        rw [Option.bind_some,puts] at taken
        cases taken
        obtain ⟨begun,opens,put⟩ := Option.bind_eq_some_iff.mp puts
        obtain ⟨opened,first,copies⟩ := open_waiting bounded waiting here copies opens
        obtain ⟨opened,index,bytes,held⟩ := put_opened opened put
        refine ⟨zeroed,?_,nofun⟩
        rintro - _ ⟨⟩
        refine ⟨opened,fun left => ?_⟩
        have clear : d ≠ nul := by
          intro same
          have := over' same
          simp only at left
          omega
        have more := copies (strlen rest) (by rw [strlen_cons clear])
        rw [index,first]
        exact ⟨by rw [bytes,held]; exact more.fill,by rw [held]; exact more.inside⟩

theorem fill_good (good : Good st) (taken : fillStep malloc middle st = .next later) : Good later := by
  obtain ⟨place,last,text,array⟩ := st
  cases text with
  | nil => cases taken
  | cons c rest =>
      cases place with
      | scan => exact scan_good bounded good taken
      | word => exact word_good bounded good taken

omit bounded in
theorem good_safe (good : Good st) : Safe malloc middle st := by
  obtain ⟨place,last,text,array⟩ := st
  cases place with
  | scan => exact ⟨fun t same => (good.scan rfl t same).1.toGrown.room,fun _ _ t same => (good.scan rfl t same).1.after⟩
  | word =>
      obtain ⟨t,words,same,here,waiting,-⟩ := good.word rfl
      cases same
      refine ⟨?_,?_⟩
      · rintro _ ⟨⟩
        exact waiting.toGrown.room
      · rintro _ - _ ⟨⟩
        exact waiting.here

-- In both loops, over every line and the zeros behind it: each step has a slot behind the index, and NULL
-- after the last word at the end. The copies of the words take up all memory before bufsize would overflow.
theorem slots_suffice (middle : Bool) (last : Char) {line : Str} (clean : nul ∉ line) (zeros : Nat)
    (reaches : Reaches (fillStep malloc middle) (.start last (line ++ nul :: List.replicate zeros nul)) st) : Safe malloc middle st := by
  have start : Good (.start last (line ++ nul :: List.replicate zeros nul)) :=
    ⟨⟨line,zeros + 1,clean,by rw [List.replicate_succ]; rfl⟩,nofun,nofun⟩
  refine good_safe ?_
  generalize Loop.start last (line ++ nul :: List.replicate zeros nul) = first at start reaches
  induction reaches with
  | refl => exact start
  | head taken _ ih => exact ih (fill_good bounded start taken)

end

-- A machine with 47 bits, and a line of eleven words, for which the array grows once.
def plenty (held size : Nat) : Bool := decide (held + size ≤ 2 ^ 47)

def elevenWords : Str := ['a',' ','b',' ','c',' ','d',' ','e',' ','f',' ','g',' ','h',' ','i',' ','j',' ','k']

theorem eleven_suffice : ∃ st t, Reaches (fillStep plenty true) (.start ' ' (elevenWords ++ nul :: List.replicate 1 nul)) st ∧
    st.array = some t ∧ t.bufindex = 10 ∧ t.block.cells.length = 20 ∧ Safe plenty true st := by
  have bounded : Bounded plenty := by
    intro held size granted
    have fits := of_decide_eq_true granted
    exact fits.trans (by decide)
  have clean : nul ∉ elevenWords := by decide
  have grown : (match runFor (fillStep plenty true) 21 (.start ' ' (elevenWords ++ nul :: List.replicate 1 nul)) with
    | .next st => st.array.map (fun t => (t.bufindex,t.block.cells.length))
    | _ => none) = some (10,20) := by decide
  split at grown
  · rename_i st ran
    obtain ⟨t,filled,counts⟩ := Option.map_eq_some_iff.mp grown
    obtain ⟨index,length⟩ := Prod.mk.inj counts
    have reaches := run_reached ran
    exact ⟨st,t,reaches,filled,index,length,slots_suffice bounded true ' ' clean 1 reaches⟩
  · cases grown

end Trollbot.IrcSlots

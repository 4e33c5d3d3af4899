import Trollbot.Util
import Trollbot.Foundation.BlockHash

-- The process function that a macro makes for every hash of the crypto module.
namespace Trollbot.Crypto
open CBuffer BlockHash

inductive CryptError where
  | ok
  | invalidArg
deriving DecidableEq

-- `buf` has as many cells as a block has bytes. `length` counts bits and wraps.
structure HashState (σ : Type) where
  length : UInt64
  state : σ
  curlen : Nat
  buf : Cells UInt8

-- The bytes of a whole buffer, where all are there.
def bytesOf (buf : Cells UInt8) : Option (List UInt8) := buf.mapM id

section
variable {σ : Type} (blockSize : Nat) (compress : σ → List UInt8 → σ)

-- while (inlen > 0). A block is taken from the input where nothing is waiting.
def hashLoop : Nat → HashState σ → List UInt8 → Option (HashState σ)
  | 0,_,_ => none
  | fuel+1,md,inp =>
    if inp = [] then some md
    else if md.curlen = 0 ∧ blockSize ≤ inp.length then
      hashLoop fuel { md with state := compress md.state (inp.take blockSize),length := md.length + (blockSize * 8).toUInt64 }
        (inp.drop blockSize)
    else do
      let n := min inp.length (blockSize - md.curlen)
      let buf ← write md.buf md.curlen ((inp.take n).map some)
      if md.curlen + n = blockSize then do
        let block ← bytesOf buf
        hashLoop fuel ⟨md.length + (8 * blockSize).toUInt64,compress md.state block,0,buf⟩ (inp.drop n)
      else hashLoop fuel { md with curlen := md.curlen + n,buf := buf } (inp.drop n)

-- One turn more than there are bytes for a full buffer at the start.
def hashProcess (md : HashState σ) (inp : List UInt8) : Option (CryptError × HashState σ) :=
  if md.buf.length < md.curlen then some (.invalidArg,md)
  else (hashLoop blockSize compress (inp.length + 2) md inp).map (fun md => (.ok,md))

end

-- The bytes that wait in the buffer.
structure Filled (size : Nat) (buf : Cells UInt8) (curlen : Nat) (waiting : List UInt8) : Prop where
  room : buf.length = size
  count : curlen = waiting.length
  front : buf.take curlen = waiting.map some

-- What the state stands for: the bytes that have been given to it.
structure Holds (h : Scheme σ UInt8) (md : HashState σ) (s : List UInt8) : Prop where
  filled : Filled h.size md.buf md.curlen (rest h.size s)
  state : md.state = h.chain s
  counted : md.length = (8 * (h.size * (blocks h.size s).length)).toUInt64

theorem bytesOf_some (s : List UInt8) : bytesOf (s.map some) = some s := by
  induction s with
  | nil => rfl
  | cons c s ih =>
      have later : (s.map some).mapM id = some s := ih
      simp [bytesOf,later]

theorem counted_next (size count : Nat) :
    (8 * (size * count)).toUInt64 + (8 * size).toUInt64 = (8 * (size * (count + 1))).toUInt64 := by
  rw [Nat.mul_add size,Nat.mul_add,Nat.mul_one]
  exact (UInt64.ofNat_add _ _).symm

section
variable {size curlen : Nat} {buf : Cells UInt8} {waiting : List UInt8}

theorem Filled.add (filled : Filled size buf curlen waiting) (more : List UInt8) (fits : waiting.length + more.length ≤ size) :
    ∃ after, write buf curlen (more.map some) = some after ∧ Filled size after (curlen + more.length) (waiting ++ more) := by
  have front : (waiting.map some).length = curlen := by rw [List.length_map,filled.count]
  have parts : buf = waiting.map some ++ buf.drop curlen := by
    rw [← filled.front,List.take_append_drop]
  have room : (more.map some).length ≤ (buf.drop curlen).length := by
    rw [List.length_map,List.length_drop,filled.room,filled.count]
    omega
  have written := write_split (waiting.map some) (buf.drop curlen) (more.map some) room
  rw [← parts,front] at written
  refine ⟨_,written,by rw [write_length written,filled.room],by rw [List.length_append,filled.count],?_⟩
  have all : curlen + more.length = (waiting.map some ++ more.map some).length := by simp [filled.count]
  rw [all,List.take_left,List.map_append]

theorem Filled.block (filled : Filled size buf curlen waiting) (full : waiting.length = size) : bytesOf buf = some waiting := by
  have all : buf = waiting.map some := by
    rw [← filled.front,List.take_of_length_le]
    exact Nat.le_of_eq (by rw [filled.room,filled.count,full])
  rw [all,bytesOf_some]

theorem Filled.emptied (filled : Filled size buf curlen waiting) : Filled size buf 0 [] := ⟨filled.room,rfl,by simp⟩

end

section
variable {σ : Type} {h : Scheme σ UInt8} {md : HashState σ} {s inp : List UInt8}

theorem Holds.short (holds : Holds h md s) : md.curlen < h.size := by
  rw [holds.filled.count]
  exact rest_lt h.positive s

theorem Holds.direct (holds : Holds h md s) (empty : md.curlen = 0) (enough : h.size ≤ inp.length) :
    Holds h { md with state := h.compress md.state (inp.take h.size),length := md.length + (h.size * 8).toUInt64 } (s ++ inp.take h.size) := by
  have none' : rest h.size s = [] := List.eq_nil_of_length_eq_zero (by rw [← holds.filled.count,empty])
  have whole : (inp.take h.size).length = h.size := by simp; omega
  have full : (rest h.size s ++ inp.take h.size).length = h.size := by rw [none',List.nil_append,whole]
  obtain ⟨front,behind⟩ := (split_fill h.positive s (inp.take h.size)).2 full
  refine ⟨?_,?_,?_⟩
  · rw [behind]
    exact ⟨holds.filled.room,empty,by simp [empty]⟩
  · rw [Scheme.chain,front,List.foldl_append,none',List.nil_append,holds.state]
    rfl
  · rw [front,holds.counted,Nat.mul_comm h.size 8,counted_next,List.length_append,List.length_singleton]

theorem Holds.waits (holds : Holds h md s) (inp : List UInt8) (few : md.curlen + inp.length < h.size) :
    ∃ buf, write md.buf md.curlen (inp.map some) = some buf ∧ Holds h { md with curlen := md.curlen + inp.length,buf := buf } (s ++ inp) := by
  rw [holds.filled.count] at few
  obtain ⟨front,behind⟩ := (split_fill h.positive s inp).1 (by rw [List.length_append]; exact few)
  obtain ⟨buf,written,kept⟩ := holds.filled.add inp (Nat.le_of_lt few)
  refine ⟨buf,written,?_,?_,?_⟩
  · rw [behind]
    exact kept
  · rw [Scheme.chain,front,holds.state]
    rfl
  · rw [front,holds.counted]

theorem Holds.fills (holds : Holds h md s) (inp : List UInt8) (full : md.curlen + inp.length = h.size) :
    ∃ buf block, write md.buf md.curlen (inp.map some) = some buf ∧ bytesOf buf = some block ∧
      Holds h ⟨md.length + (8 * h.size).toUInt64,h.compress md.state block,0,buf⟩ (s ++ inp) := by
  rw [holds.filled.count] at full
  have whole : (rest h.size s ++ inp).length = h.size := by rw [List.length_append]; exact full
  obtain ⟨front,behind⟩ := (split_fill h.positive s inp).2 whole
  obtain ⟨buf,written,kept⟩ := holds.filled.add inp (Nat.le_of_eq full)
  refine ⟨buf,rest h.size s ++ inp,written,kept.block whole,?_,?_,?_⟩
  · rw [behind]
    exact kept.emptied
  · rw [Scheme.chain,front,List.foldl_append,holds.state]
    rfl
  · rw [front,holds.counted,counted_next,List.length_append,List.length_singleton]

-- Every turn takes some bytes: one lemma for each kind of turn, the bytes that are left by induction.
theorem hashLoop_holds (holds : Holds h md s) (inp : List UInt8) (fuel : Nat) (enough : inp.length < fuel) :
    ∃ after, hashLoop h.size h.compress fuel md inp = some after ∧ Holds h after (s ++ inp) := by
  induction fuel generalizing md s inp with
  | zero => omega
  | succ fuel ih =>
      have room := holds.short
      have positive := h.positive
      by_cases none' : inp = []
      · exact ⟨md,by simp [hashLoop,none'],by simpa [none'] using holds⟩
      · have some' := List.length_pos_iff.mpr none'
        by_cases direct : md.curlen = 0 ∧ h.size ≤ inp.length
        · obtain ⟨after,done,same⟩ := ih (holds.direct direct.1 direct.2) (inp.drop h.size) (by simp; omega)
          refine ⟨after,by rw [hashLoop,if_neg none',if_pos direct,done],?_⟩
          rwa [List.append_assoc,List.take_append_drop] at same
        · have taken : (inp.take (min inp.length (h.size - md.curlen))).length = min inp.length (h.size - md.curlen) := by simp
          by_cases full : md.curlen + min inp.length (h.size - md.curlen) = h.size
          · obtain ⟨buf,block,written,read,filled⟩ := holds.fills (inp.take (min inp.length (h.size - md.curlen))) (by rw [taken]; exact full)
            obtain ⟨after,done,same⟩ := ih filled (inp.drop (min inp.length (h.size - md.curlen))) (by simp; omega)
            refine ⟨after,by simp only [hashLoop,if_neg none',if_neg direct,written,full,read,done,if_true,Option.bind_eq_bind,Option.bind_some],?_⟩
            rwa [List.append_assoc,List.take_append_drop] at same
          · obtain ⟨buf,written,kept⟩ := holds.waits (inp.take (min inp.length (h.size - md.curlen))) (by rw [taken]; omega)
            rw [taken] at kept
            obtain ⟨after,done,same⟩ := ih kept (inp.drop (min inp.length (h.size - md.curlen))) (by simp; omega)
            refine ⟨after,by simp only [hashLoop,if_neg none',if_neg direct,written,full,done,if_false,Option.bind_eq_bind,Option.bind_some],?_⟩
            rwa [List.append_assoc,List.take_append_drop] at same

-- The state afterwards holds the bytes behind those it held.
theorem process_holds (holds : Holds h md s) (inp : List UInt8) :
    ∃ after, hashProcess h.size h.compress md inp = some (.ok,after) ∧ Holds h after (s ++ inp) := by
  have room := holds.short
  obtain ⟨after,done,same⟩ := hashLoop_holds holds inp (inp.length + 2) (by omega)
  refine ⟨after,?_,same⟩
  rw [hashProcess,if_neg (by rw [holds.filled.room]; omega),done]
  rfl

end

end Trollbot.Crypto

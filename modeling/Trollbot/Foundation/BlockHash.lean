import Mathlib.Algebra.Ring.Nat
import Mathlib.Data.List.Induction

-- Hashing block by block: a compression function folded over a padded message.
namespace BlockHash

section
variable {α : Type}

def blocks (size : Nat) (s : List α) : List (List α) := (List.range (s.length / size)).map (fun i => (s.drop (i * size)).take size)

-- What the whole blocks leave.
def rest (size : Nat) (s : List α) : List α := s.drop (s.length / size * size)

@[simp] theorem blocks_nil (size : Nat) : blocks size ([] : List α) = [] := by simp [blocks]
@[simp] theorem rest_nil (size : Nat) : rest size ([] : List α) = [] := by simp [rest]

theorem blocks_short (short : s.length < size) : blocks size s = [] := by simp [blocks,Nat.div_eq_of_lt short]

theorem rest_short (short : s.length < size) : rest size s = s := by simp [rest,Nat.div_eq_of_lt short]

theorem rest_length (size : Nat) (s : List α) : (rest size s).length = s.length % size := by
  have parts := Nat.div_add_mod s.length size
  rw [rest,List.length_drop,Nat.mul_comm]
  omega

theorem rest_lt (positive : 0 < size) (s : List α) : (rest size s).length < size := by
  rw [rest_length]
  exact Nat.mod_lt _ positive

theorem blocks_cons (positive : 0 < size) (whole : b.length = size) (s : List α) : blocks size (b ++ s) = b :: blocks size s := by
  have count : (b ++ s).length / size = s.length / size + 1 := by
    rw [List.length_append,whole,Nat.add_comm,Nat.add_div_right _ positive]
  rw [blocks,count,List.range_succ_eq_map,List.map_cons,List.map_map,blocks]
  congr 1
  · simp [← whole]
  · apply List.map_congr_left
    intro i _
    have further : (i + 1) * size = b.length + i * size := by rw [whole,Nat.add_mul,Nat.one_mul,Nat.add_comm]
    simp [further]

theorem rest_cons (positive : 0 < size) (whole : b.length = size) (s : List α) : rest size (b ++ s) = rest size s := by
  have count : (b ++ s).length / size = s.length / size + 1 := by
    rw [List.length_append,whole,Nat.add_comm,Nat.add_div_right _ positive]
  have further : (s.length / size + 1) * size = b.length + s.length / size * size := by rw [whole,Nat.add_mul,Nat.one_mul,Nat.add_comm]
  rw [rest,count,further,rest]
  simp

-- A stretch of whole blocks in front keeps to itself.
theorem split_append (positive : 0 < size) (s t : List α) :
    blocks size (s ++ t) = blocks size s ++ blocks size (rest size s ++ t) ∧ rest size (s ++ t) = rest size (rest size s ++ t) := by
  by_cases short : s.length < size
  · simp [blocks_short short,rest_short short]
  · have parts : s = s.take size ++ s.drop size := (List.take_append_drop _ _).symm
    have whole : (s.take size).length = size := by simp; omega
    have ih := split_append positive (s.drop size) t
    rw [parts,List.append_assoc,blocks_cons positive whole,blocks_cons positive whole,rest_cons positive whole,rest_cons positive whole,ih.1,ih.2]
    exact ⟨rfl,rfl⟩
termination_by s.length
decreasing_by
  simp only [List.length_drop]
  omega

theorem blocks_one (positive : 0 < size) (whole : b.length = size) : blocks size b = [b] ∧ rest size b = ([] : List α) := by
  have front := blocks_cons positive whole []
  have behind := rest_cons positive whole []
  simp only [List.append_nil,blocks_nil,rest_nil] at front behind
  exact ⟨front,behind⟩

-- What is added stays in the rest, or fills it.
theorem split_fill (positive : 0 < size) (s t : List α) :
    ((rest size s ++ t).length < size → blocks size (s ++ t) = blocks size s ∧ rest size (s ++ t) = rest size s ++ t) ∧
      ((rest size s ++ t).length = size → blocks size (s ++ t) = blocks size s ++ [rest size s ++ t] ∧ rest size (s ++ t) = []) := by
  obtain ⟨front,behind⟩ := split_append positive s t
  constructor
  · intro short
    rw [front,behind,blocks_short short,rest_short short,List.append_nil]
    exact ⟨rfl,rfl⟩
  · intro whole
    rw [front,behind,(blocks_one positive whole).1,(blocks_one positive whole).2]
    exact ⟨rfl,rfl⟩

theorem blocks_flatten (positive : 0 < size) (s : List α) : (blocks size s).flatten ++ rest size s = s := by
  by_cases short : s.length < size
  · simp [blocks_short short,rest_short short]
  · have parts : s = s.take size ++ s.drop size := (List.take_append_drop _ _).symm
    have whole : (s.take size).length = size := by simp; omega
    have ih := blocks_flatten positive (s.drop size)
    rw [parts,blocks_cons positive whole,rest_cons positive whole,List.flatten_cons,List.append_assoc,ih]
termination_by s.length
decreasing_by
  simp only [List.length_drop]
  omega

theorem rest_whole (whole : size ∣ s.length) : rest size s = ([] : List α) := by
  apply List.eq_nil_of_length_eq_zero
  rw [rest_length]
  exact Nat.mod_eq_zero_of_dvd whole

end

-- How a message is made a number of whole blocks; `compress` takes in one block.
structure Scheme (σ α : Type) where
  size : Nat
  positive : 0 < size
  start : σ
  compress : σ → List α → σ
  padding : Nat → List α
  whole : ∀ n, size ∣ n + (padding n).length

namespace Scheme
variable {σ α : Type} (h : Scheme σ α)

def padded (s : List α) : List (List α) := blocks h.size (s ++ h.padding s.length)

def digest (s : List α) : σ := (h.padded s).foldl h.compress h.start

-- The value between blocks.
def chain (s : List α) : σ := (blocks h.size s).foldl h.compress h.start

theorem padded_flatten (s : List α) : (h.padded s).flatten = s ++ h.padding s.length := by
  have whole := blocks_flatten h.positive (s ++ h.padding s.length)
  rw [rest_whole (by simpa using h.whole s.length),List.append_nil] at whole
  exact whole

theorem digest_rest (s : List α) :
    h.digest s = (blocks h.size (rest h.size s ++ h.padding s.length)).foldl h.compress (h.chain s) := by
  rw [digest,padded,(split_append h.positive s _).1,List.foldl_append,chain]

end Scheme

-- Two inputs of the compressions that are made for two lists of blocks, with one output.
def Collides {σ α : Type} (compress : σ → List α → σ) (start : σ) (first second : List (List α)) : Prop :=
  ∃ before b after before' b' after', first = before ++ b :: after ∧ second = before' ++ b' :: after' ∧
    (before.foldl compress start,b) ≠ (before'.foldl compress start,b') ∧
    compress (before.foldl compress start) b = compress (before'.foldl compress start) b'

section
variable {σ α : Type} {compress : σ → List α → σ} {start : σ}

theorem Collides.longer (found : Collides compress start first second) (b b' : List α) :
    Collides compress start (first ++ [b]) (second ++ [b']) := by
  obtain ⟨before,c,after,before',c',after',rfl,rfl,differ,same⟩ := found
  exact ⟨before,c,after ++ [b],before',c',after' ++ [b'],by simp,by simp,differ,same⟩

-- Back from the ends: either the last compressions collide or what was before them is the same.
theorem last_collides (same : (first ++ [b]).foldl compress start = (second ++ [b']).foldl compress start)
    (differ : b ≠ b') : Collides compress start (first ++ [b]) (second ++ [b']) := by
  refine ⟨first,b,[],second,b',[],rfl,rfl,?_,by simpa using same⟩
  intro pairs
  exact differ (Prod.mk.inj pairs).2

theorem last_block {bs : List (List α)} (some' : bs ≠ []) : ∃ first b, bs = first ++ [b] :=
  ⟨_,_,(List.dropLast_concat_getLast some').symm⟩

theorem equal_collides {first second : List (List α)} (count : first.length = second.length) (differ : first ≠ second)
    (same : first.foldl compress start = second.foldl compress start) : Collides compress start first second := by
  induction first using List.reverseRecOn generalizing second with
  | nil =>
      exact absurd (List.eq_nil_of_length_eq_zero count.symm).symm differ
  | append_singleton first b ih =>
      have some' : second ≠ [] := by
        rintro rfl
        simp at count
      obtain ⟨second,b',rfl⟩ := last_block some'
      by_cases last : b = b'
      · subst last
        have count' : first.length = second.length := by simpa using count
        have differ' : first ≠ second := fun equal => differ (by rw [equal])
        by_cases chains : first.foldl compress start = second.foldl compress start
        · exact (ih count' differ' chains).longer b b
        · refine ⟨first,b,[],second,b,[],rfl,rfl,?_,by simpa using same⟩
          intro pairs
          exact chains (Prod.mk.inj pairs).1
      · exact last_collides same last

end

namespace Scheme
variable {σ α : Type} (h : Scheme σ α)

-- The padding tells the length: messages of two lengths do not end in the same block.
def Strengthened (bound : Nat) : Prop := ∀ s t : List α, s.length < bound → t.length < bound →
  (h.padded s).getLast? = (h.padded t).getLast? → s.length = t.length

theorem padded_some (s : List α) (some' : h.padding s.length ≠ []) : h.padded s ≠ [] := by
  intro none'
  have flat := h.padded_flatten s
  rw [none'] at flat
  have empty : s ++ h.padding s.length = [] := flat.symm
  exact some' (List.append_eq_nil_iff.mp empty).2

theorem padded_inj (count : s.length = t.length) (same : h.padded s = h.padded t) : s = t := by
  have left := h.padded_flatten s
  have right := h.padded_flatten t
  rw [same,right] at left
  exact (List.append_inj left.symm count).1

-- A collision of the hash is one of its compressions.
theorem digest_collides (strong : h.Strengthened bound) (padding : ∀ n, h.padding n ≠ [])
    (short : s.length < bound) (short' : t.length < bound) (differ : s ≠ t) (same : h.digest s = h.digest t) :
    Collides h.compress h.start (h.padded s) (h.padded t) := by
  by_cases last : (h.padded s).getLast? = (h.padded t).getLast?
  · have count := strong s t short short' last
    have blocks : (h.padded s).length = (h.padded t).length := by simp [padded,BlockHash.blocks,count]
    exact equal_collides blocks (fun equal => differ (h.padded_inj count equal)) same
  · obtain ⟨first,b,front⟩ := last_block (h.padded_some s (padding _))
    obtain ⟨second,b',front'⟩ := last_block (h.padded_some t (padding _))
    rw [digest,digest,front,front'] at same
    rw [front,front'] at last ⊢
    refine last_collides same ?_
    intro equal
    simp [equal] at last

end Scheme

-- A number in so many bytes, the highest first; what is too high is left out.
def bigEndian : Nat → Nat → List UInt8
  | 0,_ => []
  | count+1,n => bigEndian count (n / 256) ++ [n.toUInt8]

@[simp] theorem bigEndian_length (count n : Nat) : (bigEndian count n).length = count := by
  induction count generalizing n with
  | zero => rfl
  | succ count ih => simp [bigEndian,ih]

theorem bigEndian_add (high low n : Nat) : bigEndian (high + low) n = bigEndian high (n / 256 ^ low) ++ bigEndian low n := by
  induction low generalizing n with
  | zero => simp [bigEndian]
  | succ low ih =>
      have further : n / 256 / 256 ^ low = n / 256 ^ (low + 1) := by rw [Nat.div_div_eq_div_mul,Nat.pow_succ,Nat.mul_comm]
      rw [← Nat.add_assoc,bigEndian,ih,bigEndian,further,List.append_assoc]

theorem bigEndian_zero (count : Nat) : bigEndian count 0 = List.replicate count 0 := by
  induction count with
  | zero => rfl
  | succ count ih => rw [bigEndian,Nat.zero_div,ih,List.replicate_succ']; rfl

theorem bigEndian_inj (small : m < 256 ^ count) (small' : n < 256 ^ count) (same : bigEndian count m = bigEndian count n) : m = n := by
  induction count generalizing m n with
  | zero => simp_all
  | succ count ih =>
      obtain ⟨high,low⟩ := List.append_inj' same rfl
      rw [Nat.pow_succ] at small small'
      have highs := ih ((Nat.div_lt_iff_lt_mul (by decide)).mpr small) ((Nat.div_lt_iff_lt_mul (by decide)).mpr small') high
      have lows : m % 256 = n % 256 := by
        have bytes := congrArg UInt8.toNat (List.cons.inj low).1
        simpa using bytes
      omega

-- What a last block ends with, where the whole ends with it.
theorem last_suffix {α : Type} {bs : List (List α)} {front tail b : List α} (flat : bs.flatten = front ++ tail)
    (last : bs.getLast? = some b) (short : tail.length ≤ b.length) : tail <:+ b := by
  obtain ⟨first,split⟩ := List.getLast?_eq_some_iff.mp last
  rw [split,List.flatten_append,List.flatten_singleton] at flat
  exact List.suffix_of_suffix_length_le ⟨front,flat.symm⟩ ⟨_,rfl⟩ short

theorem blocks_member (s : List α) (member : b ∈ blocks size s) : b.length = size := by
  obtain ⟨i,inside,rfl⟩ := List.mem_map.mp member
  have below := List.mem_range.mp inside
  have whole : (i + 1) * size ≤ s.length := by
    have limit := Nat.mul_le_mul_right size (Nat.succ_le_of_lt below)
    exact Nat.le_trans limit (Nat.div_mul_le_self _ _)
  rw [Nat.add_mul,Nat.one_mul] at whole
  simp only [List.length_take,List.length_drop]
  omega

namespace Scheme
variable {σ α : Type} (h : Scheme σ α)

-- A padding that ends in a code of the length which is not repeated below the bound.
theorem strengthened (code : Nat → List α) (front : Nat → List α) (ends : ∀ n, h.padding n = front n ++ code n)
    (fixed : ∀ m n, (code m).length = (code n).length) (fits : ∀ n, (code n).length ≤ h.size) (some' : ∀ n, code n ≠ [])
    (inj : ∀ m n, m < bound → n < bound → code m = code n → m = n) : h.Strengthened bound := by
  intro s t short short' last
  have nonempty : h.padding s.length ≠ [] := by simp [ends,some']
  obtain ⟨first,b,split⟩ := last_block (h.padded_some s nonempty)
  have here : (h.padded s).getLast? = some b := by simp [split]
  have there : (h.padded t).getLast? = some b := by rw [← last,here]
  have long : b.length = h.size := blocks_member _ (List.mem_of_getLast? here)
  have code_s : code s.length <:+ b := by
    apply last_suffix _ here (by rw [long]; exact fits _)
    · exact s ++ front s.length
    · rw [h.padded_flatten,ends,List.append_assoc]
  have code_t : code t.length <:+ b := by
    apply last_suffix _ there (by rw [long]; exact fits _)
    · exact t ++ front t.length
    · rw [h.padded_flatten,ends,List.append_assoc]
  exact inj _ _ short short' ((List.suffix_of_suffix_length_le code_s code_t (Nat.le_of_eq (fixed _ _))).eq_of_length (fixed _ _))

end Scheme

end BlockHash

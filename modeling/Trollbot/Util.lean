import Trollbot.Foundation.CBuffer

namespace Trollbot
open CBuffer

-- A C string without its terminator.
abbrev Str := List Char

def bufferSize : Nat := 1024

-- An unsigned int, as tcrealloc0 sees it through its third argument.
def asUnsigned (n : Nat) : Nat := n % 4294967296

def tmalloc0 (size : Nat) : Buffer := zeroed size
def tstrdup (s : Str) : Buffer := ofText s

def tcrealloc0 (buffer : Buffer) (size bufsize : Nat) : Option (Buffer × Nat) :=
  (grow nul buffer size bufsize).map (fun grown => (grown,asUnsigned size))

-- An array of strings; a cell holds a null pointer or a string. Sizes are counted in cells.
abbrev Slots := Cells (Option Str)

def tsrealloc0 (slots : Slots) (size bufsize : Nat) : Option (Slots × Nat) :=
  (grow none slots size bufsize).map (fun grown => (grown,size))

-- A string at the end of the one that a buffer of `size` characters holds. None is a write outside.
def strcat (size : Nat) (dest src : Str) : Option Str := if dest.length + src.length < size then some (dest ++ src) else none

-- printf without arguments: only %% is a text.
def formatted : Str → Option Str
  | [] => some []
  | '%' :: '%' :: rest => (formatted rest).map ('%' :: ·)
  | '%' :: _ => none
  | c :: rest => (formatted rest).map (c :: ·)

def tolower (c : Char) : Char := c.toLower

def tstrcasecmp : Str → Str → Nat
  | [],[] => 0
  | [],_ :: _ => 1
  | _ :: _,[] => 1
  | a :: first,b :: second => if tolower a ≠ tolower b then 1 else tstrcasecmp first second

def fold (s : Str) : Str := s.map tolower

@[simp] theorem tstrcasecmp_iff : tstrcasecmp a b = 0 ↔ fold a = fold b := by
  induction a generalizing b with
  | nil => cases b <;> simp [tstrcasecmp,fold]
  | cons c a ih =>
      cases b with
      | nil => simp [tstrcasecmp,fold]
      | cons d b =>
          by_cases same : tolower c = tolower d
          · simpa [tstrcasecmp,fold,same] using ih
          · simp [tstrcasecmp,fold,same]

theorem strcat_iff : strcat size dest src = some after ↔ dest.length + src.length < size ∧ after = dest ++ src := by
  unfold strcat
  split
  · rename_i fits
    simp [fits,eq_comm]
  · rename_i outside
    simp [outside]

theorem tcrealloc0_grows (grown : tcrealloc0 b size bufsize = some (after,recorded)) :
    grow nul b size bufsize = some after := by
  obtain ⟨_,done,same⟩ := Option.map_eq_some_iff.mp grown
  cases same
  exact done

theorem tcrealloc0_runs (b : Buffer) (size : Nat) (positive : 0 < bufsize) :
    ∃ after, tcrealloc0 b size bufsize = some (after,asUnsigned size) := by
  obtain ⟨after,done⟩ := grow_runs nul b size positive
  exact ⟨after,by simp [tcrealloc0,done]⟩

theorem mapM_length {f : α → Option β} {blocks : List α} {found : List β} (read : blocks.mapM f = some found) :
    found.length = blocks.length := by
  induction blocks generalizing found with
  | nil =>
      cases read
      rfl
  | cons block rest ih =>
      rw [List.mapM_cons] at read
      obtain ⟨first,-,read⟩ := Option.bind_eq_some_iff.mp read
      obtain ⟨later,others,read⟩ := Option.bind_eq_some_iff.mp read
      cases read
      rw [List.length_cons,List.length_cons,ih others]

theorem mapM_member {f : α → Option β} {blocks : List α} {found : List β} (read : blocks.mapM f = some found) (member : y ∈ found) :
    ∃ block ∈ blocks, f block = some y := by
  induction blocks generalizing found with
  | nil =>
      cases read
      cases member
  | cons block rest ih =>
      rw [List.mapM_cons] at read
      obtain ⟨first,made,read⟩ := Option.bind_eq_some_iff.mp read
      obtain ⟨later,others,read⟩ := Option.bind_eq_some_iff.mp read
      cases read
      rcases List.mem_cons.mp member with rfl | behind
      · exact ⟨block,by simp,made⟩
      · obtain ⟨other,inside,made⟩ := ih others behind
        exact ⟨other,by simp [inside],made⟩

end Trollbot

import Trollbot.Foundation.Machine
import Trollbot.Util

-- The loops that read a whole file into memory.
namespace Trollbot.FileRead
open CBuffer Machine

-- `left` is what fread has not given yet.
structure Reading where
  fbuf : Buffer
  i : Nat
  left : Str
deriving DecidableEq

-- fread gives 1024 bytes until fewer remain. A write outside the allocation faults. Behind the loop
-- the terminator goes to fbuf[i+count].
def readStep (st : Reading) : Outcome Reading Buffer :=
  let block := st.left.take 1024
  let count := block.length
  match write st.fbuf st.i (block.map some) with
  | none => .fault
  | some fbuf =>
    if count = 1024 then .next ⟨resize fbuf (st.i + 1024 + 1024),st.i + 1024,st.left.drop 1024⟩
    else
      match write fbuf (st.i + count) [some nul] with
      | none => .fault
      | some fbuf => .done fbuf

-- file_to_tconfig and dcc_print_motd, up to what they do with the text.
def fileToTconfig (file : Str) : Reading := ⟨tmalloc0 bufferSize,0,file⟩
def dccPrintMotd (file : Str) : Reading := ⟨tmalloc0 1024,0,file⟩

-- The file's bytes and a NUL, and then whatever is left of the allocation.
def HoldsFile (fbuf : Buffer) (file : Str) : Prop := ∃ spare, fbuf = ofText file ++ spare

-- With what is read before the index and 1024 bytes behind it.
theorem block_written (taken block : Str) (spare : Buffer) (room : block.length ≤ spare.length) :
    write (taken.map some ++ spare) taken.length (block.map some) = some ((taken ++ block).map some ++ spare.drop block.length) := by
  have written := write_split (taken.map some) spare (block.map some) (by simpa using room)
  simpa using written

theorem full_block (taken : Str) (room : spare.length = 1024) (long : 1024 ≤ left.length) :
    readStep ⟨taken.map some ++ spare,taken.length,left⟩ =
      .next ⟨(taken ++ left.take 1024).map some ++ List.replicate 1024 none,(taken ++ left.take 1024).length,left.drop 1024⟩ := by
  have count : (left.take 1024).length = 1024 := by
    simp only [List.length_take]
    omega
  have written := block_written taken (left.take 1024) spare (by omega)
  have length : (taken ++ left.take 1024).length = taken.length + 1024 := by simp only [List.length_append,count]
  have grown : resize ((taken ++ left.take 1024).map some) (taken.length + 1024 + 1024) =
      (taken ++ left.take 1024).map some ++ List.replicate 1024 none := by
    have more := resize_more ((taken ++ left.take 1024).map some) 1024
    rwa [List.length_map,length] at more
  rw [List.drop_of_length_le (by omega),List.append_nil] at written
  simp only [readStep,written,count,if_true,grown,length]

theorem last_block (taken : Str) (room : spare.length = 1024) (short : left.length < 1024) :
    ∃ rest, readStep ⟨taken.map some ++ spare,taken.length,left⟩ = .done (ofText (taken ++ left) ++ rest) := by
  have whole : left.take 1024 = left := List.take_of_length_le (by omega)
  have written := block_written taken left spare (by omega)
  have ended := write_split ((taken ++ left).map some) (spare.drop left.length) [some nul] (by simp; omega)
  refine ⟨(spare.drop left.length).drop 1,?_⟩
  simp only [List.length_map,List.length_append,List.length_singleton] at ended
  simp only [readStep,whole,written,if_neg (by omega : ¬left.length = 1024),ended]
  rfl

theorem read_ends (taken left : Str) (room : spare.length = 1024) :
    ∃ fbuf, Ends readStep ⟨taken.map some ++ spare,taken.length,left⟩ fbuf ∧ HoldsFile fbuf (taken ++ left) := by
  generalize bound : left.length = n
  induction n using Nat.strongRecOn generalizing taken left spare with
  | ind n ih =>
      by_cases short : left.length < 1024
      · obtain ⟨rest,done⟩ := last_block taken room short
        exact ⟨_,ends_now done,rest,rfl⟩
      · have fresh : (List.replicate 1024 (none : Option Char)).length = 1024 := List.length_replicate
        have shorter : (left.drop 1024).length < n := by
          rw [List.length_drop]
          omega
        obtain ⟨fbuf,ends,holds⟩ := ih _ shorter (taken ++ left.take 1024) (left.drop 1024) fresh rfl
        rw [List.append_assoc,List.take_append_drop] at holds
        exact ⟨fbuf,ends_later (full_block taken room (by omega)) ends,holds⟩

-- For a file of any length both loops end, with every write inside, and with the file in the buffer.
theorem whole_file_read (file : Str) : (∃ fbuf, Ends readStep (fileToTconfig file) fbuf ∧ HoldsFile fbuf file) ∧
    ∃ fbuf, Ends readStep (dccPrintMotd file) fbuf ∧ HoldsFile fbuf file := by
  have room : (zeroed 1024).length = 1024 := zeroed_length
  have both := read_ends [] file room
  exact ⟨both,both⟩

end Trollbot.FileRead

import Trollbot.Channel
import Trollbot.Tssv

-- The blocks that tssv_split and egg_chanbans ask for, and what they store in them.
namespace Trollbot.ArraySizes
open CBuffer Tssv Irc

-- strncpy of the word into a zeroed block of its length and one byte.
def copyWord (word : Str) : Option Buffer := write (tmalloc0 (word.length + 1)) 0 (word.map some)

-- snprintf into age[20].
def ageText (seconds : Int) : Str := (toString seconds).toList.take 19

-- `age` is the int of the time since the ban.
section
variable (age : ChannelBan → Int)

def banString (mask who : Str) (cban : ChannelBan) : Str := mask ++ ' ' :: who ++ ' ' :: ageText (age cban)

-- sprintf into a block of the three lengths and 3.
def banBuffer (cban : ChannelBan) : Option Buffer := do
  let mask ← cban.mask
  let who ← cban.who
  write (tmalloc0 (mask.length + who.length + (ageText (age cban)).length + 3)) 0 (ofText (banString age mask who cban))

def storeBan (cban : ChannelBan) : Option (Option (Option Str)) := do
  let buffer ← banBuffer age cban
  let string ← text buffer
  some (some (some string))

-- A null pointer where the channel is not found. None is a null string or a write outside a block.
def eggChanbans (usable : Nat → Nat) (net : Network) (channel : Option Str) : Option (Option Slots) := do
  match ← networkChannelFind net channel with
  | none => some none
  | some place => do
    let chan ← net.chans[place]?
    let strings ← chan.banlist.items.mapM (storeBan age)
    (write (pointers usable (sizeofPointer * chan.banlist.items.length + 1)) 0 (strings ++ [some none])).map some

-- Every pointer that is stored, the null pointer too, is within what was asked for.
def SplitFits (line : Str) : Prop := ∃ result, tssvArray id line = some result
def ChanbansFit (net : Network) (channel : Option Str) : Prop := ∃ result, eggChanbans age id net channel = some result

-- Every string with its terminator fills the block that was asked for it.
def WordsFit (line : Str) : Prop := ∀ found, tssvSplit line = some found → ∀ word ∈ found, copyWord word = some (ofText word)
def StringsFit (bans : List ChannelBan) : Prop :=
  ∀ ban ∈ bans, ∀ mask who, ban.mask = some mask → ban.who = some who → banBuffer age ban = some (ofText (banString age mask who ban))

end

-- A block that is filled but for its last bytes.
theorem zeroed_filled (cells : Buffer) (spare : Nat) : write (zeroed (cells.length + spare)) 0 cells = some (cells ++ zeroed spare) := by
  have written := write_split [] (zeroed (cells.length + spare)) cells (by simp)
  simpa [zeroed,List.drop_replicate] using written

theorem copyWord_fits (word : Str) : copyWord word = some (ofText word) := by
  have filled := zeroed_filled (word.map some) 1
  rw [List.length_map] at filled
  rw [copyWord,tmalloc0,filled]
  rfl

theorem banBuffer_fits (age : ChannelBan → Int) (bans : List ChannelBan) : StringsFit age bans := by
  intro ban _ mask who held by'
  have filled := zeroed_filled (ofText (banString age mask who ban)) 0
  have length : (ofText (banString age mask who ban)).length = mask.length + who.length + (ageText (age ban)).length + 3 := by
    simp only [ofText_length,banString,List.length_append,List.length_cons]
    omega
  rw [length] at filled
  simpa [banBuffer,held,by',tmalloc0,zeroed] using filled

theorem split_fits (line : Str) : SplitFits line ↔ ∀ c ∈ line, isBlank c = true := by
  unfold SplitFits
  cases split : tssvSplit line with
  | none => exact iff_of_true ⟨none,by simp [tssvArray,split]⟩ (split_none.mp split)
  | some found =>
      rw [array_iff split,← split_none,split]
      simp [sizeofPointer]
      omega

-- One byte is asked for where the null pointer takes eight.
theorem pointers_short (strings : Slots) : write (pointers id (sizeofPointer * strings.length + 1)) 0 (strings ++ [some none]) = none := by
  have room := pointers_length id strings.length
  have short : ¬0 + (strings ++ [some none]).length ≤ (pointers id (sizeofPointer * strings.length + 1)).length := by
    rw [room]
    simp only [List.length_append,List.length_singleton,sizeofPointer,id]
    omega
  rw [write,if_neg short]

theorem chanbans_outside {net : Network} (found : networkChannelFind net channel = some (some place))
    (here : net.chans[place]? = some chan) (age : ChannelBan → Int) : ¬ChanbansFit age net channel := by
  rintro ⟨result,made⟩
  simp only [eggChanbans,found,here,Option.bind_eq_bind,Option.bind_some] at made
  obtain ⟨strings,stored,made⟩ := Option.bind_eq_some_iff.mp made
  rw [← mapM_length stored,pointers_short] at made
  cases made

-- The strings have their room. The array of tssv_split has it where nothing is stored, for a line of
-- blanks, and that of egg_chanbans for no channel.
theorem arrays_fit (line : Str) {net : Network} (found : networkChannelFind net channel = some (some place))
    (here : net.chans[place]? = some chan) (age : ChannelBan → Int) :
    WordsFit line ∧ StringsFit age chan.banlist.items ∧
      (SplitFits line ↔ ∀ c ∈ line, isBlank c = true) ∧ ¬ChanbansFit age net channel :=
  ⟨fun _ _ word _ => copyWord_fits word,banBuffer_fits age _,split_fits line,chanbans_outside found here age⟩

def bannedChannel : Channel := ⟨some ['#','c'],.empty,none,none,⟨[],[⟨some ['#','c'],some ['m'],some ['w'],some ['0']⟩]⟩⟩
def bannedNetwork : Network := ⟨['b'],none,none,none,.connected,[bannedChannel],newTrigTable⟩

theorem one_ban_fits : WordsFit ['a'] ∧ StringsFit (fun _ => 0) bannedChannel.banlist.items ∧
    (SplitFits ['a'] ↔ ∀ c ∈ ['a'], isBlank c = true) ∧ ¬ChanbansFit (fun _ => 0) bannedNetwork (some ['#','c']) :=
  arrays_fit ['a'] rfl rfl (fun _ => 0)

theorem one_word_outside : ¬SplitFits ['a'] := by
  rw [split_fits]
  decide

end Trollbot.ArraySizes

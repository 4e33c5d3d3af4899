import Mathlib.Algebra.Ring.Nat
import Trollbot.IrcProto

-- join_channels: one JOIN for all the channels of a network.
namespace Trollbot.Irc

-- A command for some channels, as it is sent.
def joinLine (names : List Str) : Output := .sent ("JOIN ".toList ++ [','].intercalate names ++ ['\n','\n'])

-- No write is outside, and the commands that are sent name each channel once.
def JoinsAll (net : Network) : Prop :=
  ∃ groups : List (List Str), joinChannels net = some (groups.map joinLine) ∧ (groups.flatten.map some).Perm (net.chans.map (·.name))

def nameBytes (chans : List Channel) : Nat := (chans.map (fun chan => (chan.name.getD []).length)).sum

-- The names fit under the limit, and with their commas and the terminator into the buffer.
structure NamesFit (chans : List Channel) : Prop where
  named : ∀ chan ∈ chans, chan.name ≠ none
  counted : 5 + nameBytes chans ≤ bufferSize - 3
  room : nameBytes chans + chans.length < bufferSize

def commaed (names : List Str) : Str := names.flatMap (fun name => name ++ [','])

theorem commaed_intercalate (names : List Str) : (commaed names).dropLast = [','].intercalate names := by
  induction names with
  | nil => rfl
  | cons name rest ih =>
      cases rest with
      | nil => simp [commaed,List.intercalate]
      | cons next rest =>
          have some' : commaed (next :: rest) ≠ [] := by simp [commaed]
          have split : commaed (name :: next :: rest) = name ++ ',' :: commaed (next :: rest) := by simp [commaed]
          rw [split,List.dropLast_append_of_ne_nil (by simp),List.dropLast_cons_of_ne_nil some',ih]
          simp [List.intercalate]

theorem commaed_length {chans : List Channel} {names : List Str} (named : chans.map (·.name) = names.map some) :
    (commaed names).length = nameBytes chans + chans.length := by
  induction chans generalizing names with
  | nil =>
      cases names with
      | nil => rfl
      | cons name names => cases named
  | cons chan chans ih =>
      cases names with
      | nil => cases named
      | cons name names =>
          obtain ⟨first,rest⟩ := List.cons.inj named
          have later := ih rest
          simp only [commaed] at later
          simp only [commaed,nameBytes,List.flatMap_cons,List.length_append,later,List.map_cons,List.sum_cons,List.length_cons,
            List.length_nil,first,Option.getD_some]
          omega

-- A loop that comes to the end of the list has counted all names and had room for all of them.
theorem loop_ends {chans : List Channel} {numbytes : Nat} {joinstr after : Str} (high : numbytes ≤ bufferSize - 3)
    (inside : joinstr.length < bufferSize) (ran : joinNames numbytes joinstr chans = some (some after)) :
    ∃ names : List Str, chans.map (·.name) = names.map some ∧ numbytes + nameBytes chans ≤ bufferSize - 3 ∧
      joinstr.length + nameBytes chans + chans.length < bufferSize := by
  induction chans generalizing numbytes joinstr with
  | nil => exact ⟨[],rfl,by simpa [nameBytes] using high,by simpa [nameBytes] using inside⟩
  | cons chan chans ih =>
      obtain ⟨name,named,ran⟩ := Option.bind_eq_some_iff.mp ran
      simp only at ran
      split at ran
      · cases ran
      · split at ran
        · cases ran
        · rename_i counts writes
          obtain ⟨names,others,counted,fits⟩ := ih (by omega) (by simp only [List.length_append,List.length_singleton]; omega) ran
          refine ⟨name :: names,by simp [named,others],?_,?_⟩
          · simp only [nameBytes,List.map_cons,List.sum_cons,named,Option.getD_some] at counted ⊢
            omega
          · simp only [nameBytes,List.map_cons,List.sum_cons,named,Option.getD_some,List.length_append,List.length_cons,List.length_nil] at fits ⊢
            omega

theorem loop_runs {chans : List Channel} {names : List Str} {numbytes : Nat} {joinstr : Str}
    (named : chans.map (·.name) = names.map some) (counted : numbytes + nameBytes chans ≤ bufferSize - 3)
    (fits : joinstr.length + nameBytes chans + chans.length < bufferSize) :
    joinNames numbytes joinstr chans = some (some (joinstr ++ commaed names)) := by
  induction chans generalizing names numbytes joinstr with
  | nil =>
      cases names with
      | nil => simp [joinNames,commaed]
      | cons name names => cases named
  | cons chan chans ih =>
      cases names with
      | nil => cases named
      | cons name names =>
          obtain ⟨first,rest⟩ := List.cons.inj named
          simp only [nameBytes,List.map_cons,List.sum_cons,first,Option.getD_some,List.length_cons] at counted fits
          have counts : ¬bufferSize - 3 < numbytes + name.length := by omega
          have writes : ¬bufferSize < joinstr.length + name.length + 2 := by omega
          have later : joinNames (numbytes + name.length) (joinstr ++ name ++ [',']) chans =
              some (some (joinstr ++ name ++ [','] ++ commaed names)) := by
            apply ih rest
            · simp only [nameBytes]
              omega
            · simp only [nameBytes,List.length_append,List.length_singleton]
              omega
          simp only [joinNames,first,Option.bind_eq_bind,Option.bind_some,if_neg counts,if_neg writes,later]
          simp [commaed]

theorem joined_sent {net : Network} {names : List Str} (some' : net.chans ≠ [])
    (named : net.chans.map (·.name) = names.map some) (fit : NamesFit net.chans) : joinChannels net = some [joinLine names] := by
  have counted := fit.counted
  have room := fit.room
  have ran : joinNames 5 [] net.chans = some (some ([] ++ commaed names)) := loop_runs named counted (by simpa using room)
  have short := commaed_length named
  have whole : ("JOIN ".toList ++ (commaed names).dropLast ++ ['\n']).take 2047 = "JOIN ".toList ++ (commaed names).dropLast ++ ['\n'] := by
    apply List.take_of_length_le
    simp [short]
    simp only [bufferSize] at room
    omega
  simp only [joinChannels,if_neg some',ran,List.nil_append,Option.bind_eq_bind,Option.bind_some,Option.map_some,Option.toList_some,
    tsocketPrintf,whole]
  simp [joinLine,commaed_intercalate]

theorem names_given {chans : List Channel} (named : ∀ chan ∈ chans, chan.name ≠ none) :
    ∃ names : List Str, chans.map (·.name) = names.map some := by
  induction chans with
  | nil => exact ⟨[],rfl⟩
  | cons chan chans ih =>
      obtain ⟨name,has⟩ := Option.ne_none_iff_exists'.mp (named chan (by simp))
      obtain ⟨names,others⟩ := ih (fun other member => named other (by simp [member]))
      exact ⟨name :: names,by simp [has,others]⟩

theorem joins_fit {net : Network} (some' : net.chans ≠ []) (joins : JoinsAll net) : NamesFit net.chans := by
  obtain ⟨groups,sent,all⟩ := joins
  simp only [joinChannels,if_neg some'] at sent
  obtain ⟨ended,ran,sent⟩ := Option.bind_eq_some_iff.mp sent
  cases ended with
  | none =>
      have nobody : groups = [] := by simpa using sent.symm
      subst nobody
      exact absurd (List.map_eq_nil_iff.mp all.symm.eq_nil) some'
  | some joinstr =>
      obtain ⟨names,named,counted,room⟩ := loop_ends (by decide) (by decide) ran
      refine ⟨?_,counted,by simpa using room⟩
      intro chan member missing
      have inside : chan.name ∈ names.map some := named ▸ List.mem_map_of_mem member
      rw [missing] at inside
      simp at inside

theorem channels_joined (net : Network) : JoinsAll net ↔ net.chans = [] ∨ NamesFit net.chans := by
  by_cases nobody : net.chans = []
  · refine ⟨fun _ => .inl nobody,fun _ => ⟨[],?_,by simp [nobody]⟩⟩
    simp [joinChannels,nobody]
  · constructor
    · intro joins
      exact .inr (joins_fit nobody joins)
    · intro fits
      have fit := fits.resolve_left nobody
      obtain ⟨names,named⟩ := names_given fit.named
      refine ⟨[names],joined_sent nobody named fit,?_⟩
      simp [named]

def trollbots : Channel := ⟨some "#trollbots".toList,.empty,none,none,.empty⟩
def busyNetwork : Network := ⟨['t'],some ['t'],none,none,.authorized,List.replicate 100 trollbots,newTrigTable⟩

-- The limit is not reached, but with the commas the buffer is.
theorem hundred_channels_overflow : ¬JoinsAll busyNetwork := by
  intro joins
  have fit := joins_fit (by decide) joins
  have room := fit.room
  revert room
  decide

end Trollbot.Irc

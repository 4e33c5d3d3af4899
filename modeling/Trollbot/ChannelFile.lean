import Trollbot.ConfigEngine
import Trollbot.TconfigParsed
import Mathlib.Data.List.ReduceOption

-- The channels of a network, written to its channel file and read again.
namespace Trollbot.ConfigEngine
open Tconfig

def chanBlocks : List Channel → Forest Entry
  | [] => .nil
  | chan :: rest =>
    .cons ⟨some "channel".toList,chan.name⟩ (leaves (chan.eggVars.map (fun cev => ⟨cev.key,cev.value⟩))) (chanBlocks rest)

-- None is a crash: after the loop the last block is asked for the one before it.
def chansToTconfig (chans : List Channel) : Option (Forest Entry) := if chans = [] then none else some (chanBlocks chans)

-- chans_save with a channel file, before and after.
def chansSave (chans : List Channel) (file after : Option Str) : Prop := ∃ tcfg, chansToTconfig chans = some tcfg ∧ tconfigSave tcfg file after

def chansLoad (file : Option Str) (chans : List Channel) : Prop :=
  ∃ blocks found, fileBlocks file blocks ∧ blocks.mapM (fun block => newChanFromTconfigBlock block.1 block.2) = some found ∧
    found.reduceOption = chans

def ChansKept (file : Option Str) (chans : List Channel) : Prop := ∃ after, chansSave chans file after ∧ chansLoad after chans

-- What the operator can have given a channel.
def Configured (chan : Channel) : Prop :=
  (∃ name, chan.name = some name ∧ Plain name) ∧ (∀ cev ∈ chan.eggVars, ∃ key value, cev = ⟨some key,some value⟩ ∧ Plain key ∧ Plain value) ∧
    (chan.eggVars.map ChanEggVar.key).Nodup

-- What the loader makes of the block of a channel.
def restored (chan : Channel) : Option Channel := if chan.eggVars = [] then none else some ⟨chan.name,chan.eggVars.reverse⟩

theorem vars_reversed (row : List Entry) (vars : List ChanEggVar) :
    row.foldl (fun vars e => ⟨e.key,e.value⟩ :: vars) vars = (row.map (fun e => ChanEggVar.mk e.key e.value)).reverse ++ vars := by
  induction row generalizing vars with
  | nil => rfl
  | cons e rest ih => simp [ih]

theorem chan_reads (named : chan.name = some name) : newChanFromTconfigBlock ⟨some "channel".toList,chan.name⟩
    (leaves (chan.eggVars.map (fun cev => ⟨cev.key,cev.value⟩))) = some (restored chan) := by
  have read : newChanFromTconfigBlock ⟨some "channel".toList,some name⟩ (leaves (chan.eggVars.map (fun cev => ⟨cev.key,cev.value⟩))) =
      if leaves (chan.eggVars.map (fun cev => Entry.mk cev.key cev.value)) = .nil then some none
      else some (some ⟨some name,(leaves (chan.eggVars.map (fun cev => Entry.mk cev.key cev.value))).row.foldl
        (fun vars e => ⟨e.key,e.value⟩ :: vars) []⟩) := rfl
  rw [named,read,leaves_row,vars_reversed]
  unfold restored
  rw [named]
  cases chan.eggVars with
  | nil => rfl
  | cons cev rest => simp [leaves,Function.comp_def]

theorem chans_read (chans : List Channel) (named : ∀ chan ∈ chans, ∃ name, chan.name = some name) :
    (chanBlocks chans).blocks.mapM (fun block => newChanFromTconfigBlock block.1 block.2) = some (chans.map restored) := by
  induction chans with
  | nil => rfl
  | cons chan rest ih =>
      obtain ⟨name,is⟩ := named chan (by simp)
      have first := chan_reads is
      have later := ih (fun other member => named other (by simp [member]))
      simp only [chanBlocks,Forest.blocks,List.mapM_cons,first,later,Option.bind_eq_bind,Option.bind_some,List.map_cons,Option.pure_def]

theorem chans_row (chans : List Channel) : (chanBlocks chans).row = chans.map (fun chan => ⟨some "channel".toList,chan.name⟩) := by
  induction chans with
  | nil => rfl
  | cons chan rest ih => simp [chanBlocks,Forest.row,ih]

theorem channel_key : PlainKey "channel".toList := by
  have word : "channel".toList ≠ [] ∧ ∀ c ∈ "channel".toList,
      (c ≠ CBuffer.nul ∧ c ≠ '\r' ∧ c ≠ '\n' ∧ c ≠ '"') ∧ c ≠ '{' ∧ c ≠ '}' ∧ c ≠ '/' := by decide
  exact plain_word word.1 word.2

theorem chans_labels (configured : ∀ chan ∈ chans, Configured chan) :
    ∀ e ∈ (chanBlocks chans).labels, ∃ key value, e = ⟨some key,some value⟩ ∧ Plain key ∧ Plain value := by
  induction chans with
  | nil => simp [chanBlocks,Forest.labels]
  | cons chan rest ih =>
      obtain ⟨⟨name,named,plain⟩,settings,-⟩ := configured chan (by simp)
      intro e member
      rw [chanBlocks,Forest.labels,List.mem_cons,List.mem_append,leaves_labels] at member
      rcases member with rfl | below | later
      · exact ⟨_,name,by rw [named],channel_key.1,plain⟩
      · obtain ⟨cev,inside,rfl⟩ := List.mem_map.mp below
        obtain ⟨key,value,rfl,plainKey,plain⟩ := settings cev inside
        exact ⟨key,value,rfl,plainKey,plain⟩
      · exact ih (fun other inside => configured other (by simp [inside])) e later

theorem chans_carried (configured : ∀ chan ∈ chans, Configured chan) (keyed : ∀ chan ∈ chans, ∀ cev ∈ chan.eggVars, ∀ key ∈ cev.key, PlainKey key)
    (distinct : chans.Pairwise (fun a b => ∀ name ∈ a.name, ∀ other ∈ b.name, tstrcasecmp name other ≠ 0)) : Carried (chanBlocks chans) := by
  induction chans with
  | nil => trivial
  | cons chan rest ih =>
      obtain ⟨⟨name,named,plain⟩,settings,once⟩ := configured chan (by simp)
      obtain ⟨apart,distinct⟩ := List.pairwise_cons.mp distinct
      refine ⟨⟨_,name,by rw [named],channel_key,plain.legible⟩,?_,leaves_carried ?_ ?_,ih (fun other inside => configured other (by simp [inside]))
        (fun other inside => keyed other (by simp [inside])) distinct⟩
      · intro member
        rw [chans_row] at member
        obtain ⟨other,inside,same⟩ := List.mem_map.mp member
        have shared : other.name = chan.name := by simpa using same
        exact apart other inside name named name (shared.trans named) (tstrcasecmp_iff.mpr rfl)
      · intro e member
        obtain ⟨cev,inside,rfl⟩ := List.mem_map.mp member
        obtain ⟨key,value,rfl,-,plain⟩ := settings cev inside
        exact ⟨key,value,rfl,keyed chan (by simp) _ inside key rfl,plain.legible⟩
      · refine List.Nodup.of_map Entry.key ?_
        rw [List.map_map]
        exact once

theorem chan_blocks {chans : List Channel} (some' : chans ≠ []) : chanBlocks chans ≠ .nil := by
  cases chans with
  | nil => exact absurd rfl some'
  | cons chan rest => exact nofun

-- A key that comes back stood in the file as the format has it.
theorem loaded_keys (configured : ∀ chan ∈ chans, Configured chan) (loaded : chansLoad (some (text 0 (chanBlocks chans))) chans) :
    ∀ chan ∈ chans, ∀ cev ∈ chan.eggVars, ∀ key ∈ cev.key, PlainKey key := by
  obtain ⟨blocks,found,read,made,back⟩ := loaded
  intro chan member cev set key named
  have here : some chan ∈ found := List.reduceOption_mem_iff.mp (by rw [back]; exact member)
  obtain ⟨block,inside,made⟩ := mapM_member made here
  have child : ∃ e ∈ block.2.row, e.key = some key := by
    obtain ⟨word,-,made⟩ := Option.bind_eq_some_iff.mp made
    split at made
    · split at made
      · cases made
      · obtain ⟨name,-,made⟩ := Option.bind_eq_some_iff.mp made
        cases made
        rw [vars_reversed,List.append_nil,List.mem_reverse] at set
        obtain ⟨e,below,rfl⟩ := List.mem_map.mp set
        exact ⟨e,below,named⟩
    · cases made
  obtain ⟨e,below,keyed⟩ := child
  obtain ⟨-,settings,-⟩ := configured chan member
  obtain ⟨key',value,rfl,plainKey,-⟩ := settings cev set
  obtain rfl : key' = key := by simpa using named
  refine ⟨plainKey,?_⟩
  intro space tab c first
  rcases fileBlocks_labels read inside e (List.mem_cons_of_mem _ (Forest.row_labels below)) with blank | ⟨key,value,rfl,form,-⟩
  · rw [blank] at keyed
    cases keyed
  · obtain rfl : key = key' := by simpa using keyed
    rcases form with between | ⟨d,tail,rfl,special⟩
    · have goes := text_goes (chans_labels configured) 0
      rw [← List.takeWhile_append_dropWhile (p := fun c => c != CBuffer.nul) (l := text 0 (chanBlocks chans)),List.foldlM_append] at goes
      obtain ⟨middle,goes,-⟩ := Option.bind_eq_some_iff.mp goes
      obtain ⟨c,inside,blank⟩ := quotes_apart goes between
      rcases Bool.or_eq_true_iff.mp blank with isSpace | isTab
      · rw [beq_iff_eq.mp isSpace] at inside
        exact absurd inside space
      · rw [beq_iff_eq.mp isTab] at inside
        exact absurd inside tab
    · obtain rfl : d = c := by simpa using first
      exact special

theorem load_restored {chans : List Channel} (some' : chans ≠ []) (carried : Carried (chanBlocks chans))
    (named : ∀ chan ∈ chans, ∃ name, chan.name = some name) (loaded : List Channel) :
    chansLoad (some (text 0 (chanBlocks chans))) loaded ↔ loaded = (chans.map restored).reduceOption := by
  have file := fileBlocks_text carried (chan_blocks some')
  have read := chans_read chans named
  constructor
  · rintro ⟨blocks,found,file',read',rfl⟩
    rw [fileBlocks_same file file',read] at read'
    cases read'
    rfl
  · rintro rfl
    exact ⟨_,_,file,read,rfl⟩

theorem reversed_single {l : List α} (same : l.reverse = l) (once : l.Nodup) (some' : l ≠ []) : ∃ x, l = [x] := by
  obtain ⟨front,last,rfl⟩ := (List.eq_nil_or_concat l).resolve_left some'
  cases front with
  | nil => exact ⟨last,rfl⟩
  | cons first rest =>
      have ends : last = first := by simpa using congrArg List.head? same
      simp [ends] at once

-- A channel comes back as it was where it has one setting.
theorem restored_same (configured : Configured chan) : restored chan = some chan ↔ ∃ cev, chan.eggVars = [cev] := by
  unfold restored
  split
  · rename_i unset
    simp [unset]
  · rename_i set
    constructor
    · intro same
      have reversed : chan.eggVars.reverse = chan.eggVars := congrArg Channel.eggVars (Option.some.inj same)
      exact reversed_single reversed (List.Nodup.of_map _ configured.2.2) set
    · rintro ⟨cev,single⟩
      rw [single,List.reverse_singleton,← single]

theorem reduced_full {l : List (Option α)} (full : ∀ x ∈ l, x.isSome = true) : l.reduceOption.map some = l := by
  induction l with
  | nil => rfl
  | cons x rest ih =>
      obtain ⟨y,rfl⟩ := Option.isSome_iff_exists.mp (full x (by simp))
      rw [List.reduceOption_cons_of_some,List.map_cons,ih fun other member => full other (by simp [member])]

theorem restored_all {chans : List Channel} : (chans.map restored).reduceOption = chans ↔ ∀ chan ∈ chans, restored chan = some chan := by
  constructor
  · intro same
    have counted : (chans.map restored).reduceOption.length = (chans.map restored).length := by rw [same,List.length_map]
    have whole := reduced_full (List.reduceOption_length_eq_iff.mp counted)
    rw [same] at whole
    exact fun chan member => (List.map_inj_left.mp whole chan member).symm
  · intro same
    rw [List.map_inj_left.mpr same]
    simp [List.reduceOption]

-- The channel file keeps the channels that have one setting, with a key that does not look like a
-- brace or a comment.
theorem chans_kept (chans : List Channel) (configured : ∀ chan ∈ chans, Configured chan)
    (distinct : chans.Pairwise (fun a b => ∀ name ∈ a.name, ∀ other ∈ b.name, tstrcasecmp name other ≠ 0)) (file : Option Str) :
    ChansKept file chans ↔ chans ≠ [] ∧ ∀ chan ∈ chans, ∃ cev, chan.eggVars = [cev] ∧ ∀ key ∈ cev.key, PlainKey key := by
  have named : ∀ chan ∈ chans, ∃ name, chan.name = some name := by
    intro chan member
    obtain ⟨⟨name,is,-⟩,-⟩ := configured chan member
    exact ⟨name,is⟩
  have filled : ∀ e ∈ (chanBlocks chans).labels, Filled e := by
    intro e member
    obtain ⟨key,value,same,-⟩ := chans_labels configured e member
    exact ⟨key,value,same⟩
  constructor
  · rintro ⟨after,⟨tcfg,made,written⟩,loaded⟩
    unfold chansToTconfig at made
    split at made
    · cases made
    · rename_i some'
      cases made
      rw [(save_text filled (chan_blocks some') file after).mp written] at loaded
      have keyed := loaded_keys configured loaded
      have same := restored_all.mp ((load_restored some' (chans_carried configured keyed distinct) named chans).mp loaded).symm
      refine ⟨some',?_⟩
      intro chan member
      obtain ⟨cev,single⟩ := (restored_same (configured chan member)).mp (same chan member)
      exact ⟨cev,single,keyed chan member cev (by simp [single])⟩
  · rintro ⟨some',survives⟩
    have keyed : ∀ chan ∈ chans, ∀ cev ∈ chan.eggVars, ∀ key ∈ cev.key, PlainKey key := by
      intro chan member cev set
      obtain ⟨only,single,keyed⟩ := survives chan member
      rw [single,List.mem_singleton] at set
      rw [set]
      exact keyed
    have same : ∀ chan ∈ chans, restored chan = some chan := by
      intro chan member
      obtain ⟨only,single,-⟩ := survives chan member
      exact (restored_same (configured chan member)).mpr ⟨only,single⟩
    refine ⟨_,⟨_,if_neg some',(save_text filled (chan_blocks some') file _).mpr rfl⟩,?_⟩
    exact (load_restored some' (chans_carried configured keyed distinct) named chans).mpr (restored_all.mpr same).symm

def trollchan : Channel := ⟨some "#troll chan".toList,[⟨some "greet".toList,some "\x7bon".toList⟩]⟩
def devel : Channel := ⟨some "#devel".toList,[⟨some "\x7b x".toList,some "y".toList⟩]⟩

theorem two_channels_kept : ChansKept none [trollchan,devel] := by
  have words : ∀ word ∈ ["#troll chan".toList,"greet".toList,"\x7bon".toList,"#devel".toList,"\x7b x".toList,"y".toList],
      word ≠ [] ∧ ∀ c ∈ word, c ≠ CBuffer.nul ∧ c ≠ '\r' ∧ c ≠ '\n' ∧ c ≠ '"' := by decide
  refine (chans_kept [trollchan,devel] ?_ ?_ none).mpr ⟨nofun,?_⟩
  · intro chan member
    rcases List.mem_pair.mp member with rfl | rfl
    · refine ⟨⟨_,rfl,words _ (by decide)⟩,?_,by decide⟩
      intro cev set
      obtain rfl := List.mem_singleton.mp set
      exact ⟨_,_,rfl,words _ (by decide),words _ (by decide)⟩
    · refine ⟨⟨_,rfl,words _ (by decide)⟩,?_,by decide⟩
      intro cev set
      obtain rfl := List.mem_singleton.mp set
      exact ⟨_,_,rfl,words _ (by decide),words _ (by decide)⟩
  · decide
  · intro chan member
    rcases List.mem_pair.mp member with rfl | rfl
    · refine ⟨_,rfl,?_⟩
      rintro key ⟨⟩
      exact ⟨words _ (by decide),by decide⟩
    · refine ⟨_,rfl,?_⟩
      rintro key ⟨⟩
      exact ⟨words _ (by decide),by decide⟩

-- A channel with two settings comes back with them in the other order.
def turned : Channel := ⟨some "#x".toList,[⟨some "a".toList,some "1".toList⟩,⟨some "b".toList,some "2".toList⟩]⟩

theorem settings_turned : ¬∀ (file : Option Str) (chans : List Channel), (∀ chan ∈ chans, Configured chan) →
    chans.Pairwise (fun a b => ∀ name ∈ a.name, ∀ other ∈ b.name, tstrcasecmp name other ≠ 0) → ChansKept file chans := by
  intro all
  have words : ∀ word ∈ ["#x".toList,"a".toList,"1".toList,"b".toList,"2".toList],
      word ≠ [] ∧ ∀ c ∈ word, c ≠ CBuffer.nul ∧ c ≠ '\r' ∧ c ≠ '\n' ∧ c ≠ '"' := by decide
  have heads : ∀ key ∈ ["a".toList,"b".toList], ∀ c ∈ key.head?, c ≠ '{' ∧ c ≠ '}' ∧ c ≠ '/' := by decide
  have configured : ∀ chan ∈ [turned], Configured chan := by
    intro chan member
    obtain rfl := List.mem_singleton.mp member
    refine ⟨⟨_,rfl,words _ (by decide)⟩,?_,by decide⟩
    intro cev set
    rcases List.mem_pair.mp set with rfl | rfl
    · exact ⟨_,_,rfl,words _ (by decide),words _ (by decide)⟩
    · exact ⟨_,_,rfl,words _ (by decide),words _ (by decide)⟩
  have keyed : ∀ chan ∈ [turned], ∀ cev ∈ chan.eggVars, ∀ key ∈ cev.key, PlainKey key := by
    intro chan member cev set key named
    obtain rfl := List.mem_singleton.mp member
    rcases List.mem_pair.mp set with rfl | rfl
    · cases named
      exact ⟨words _ (by decide),fun _ _ => heads _ (by decide)⟩
    · cases named
      exact ⟨words _ (by decide),fun _ _ => heads _ (by decide)⟩
  have carried := chans_carried configured keyed (List.pairwise_singleton _ _)
  obtain ⟨after,⟨tcfg,made,written⟩,loaded⟩ := all none [turned] configured (List.pairwise_singleton _ _)
  cases made
  have some' : [turned] ≠ [] := by simp
  have named : ∀ chan ∈ [turned], ∃ name, chan.name = some name := by
    intro chan member
    obtain rfl := List.mem_singleton.mp member
    exact ⟨_,rfl⟩
  rw [(save_text carried.filled (chan_blocks some') none after).mp written] at loaded
  have same := (load_restored some' carried named [turned]).mp loaded
  exact absurd same (by decide)

end Trollbot.ConfigEngine

import Trollbot.ConfigReads
import Trollbot.TconfigMergeSteps

-- A rehash against the start. Both read the same file; the start merges the defaults into it first.
namespace Trollbot.ConfigEngine
open Tconfig Linked Options Machine

def isRead (e : Entry) : Bool := isGlobal e || isNetwork e

-- The settings stay in front, and those with a block of their own keep one.
def Below (old new : Forest Entry) : Prop :=
  GoesOn (fun x y : Entry × Forest Entry => x.1 = y.1 ∧ (x.2 ≠ .nil → y.2 ≠ .nil)) old.blocks new.blocks

-- A block that a merge has added settings to.
def Grown (old new : Entry × Forest Entry) : Prop := old.1 = new.1 ∧ (isRead old.1 = true → Below old.2 new.2)

-- The blocks that are read have keys.
def Keys (blocks : List (Entry × Forest Entry)) : Prop :=
  ∀ block ∈ blocks, HasKey block.1 ∧ (isRead block.1 = true → ∀ e ∈ block.2.row, HasKey e)

theorem Below.row {old new : Forest Entry} (below : Below old new) : old.row <+: new.row := by
  unfold Below at below
  rw [← Forest.map_blocks old,← Forest.map_blocks new]
  generalize old.blocks = olds,new.blocks = news at below
  induction below with
  | more => exact List.nil_prefix
  | kept same _ ih => exact List.prefix_cons_iff.mpr (.inr ⟨_,by rw [List.map_cons,same.1],ih⟩)

section merge
variable {h later : Heap Entry} {a : Placed Entry} {t : Forest Entry}

-- What a merge leaves of a file whose blocks have keys: all of it, in front, on the levels that are read.
theorem merge_goesOn (rep : Rep h none none none a) (merges : tconfigMerge h src (head a) later) (leads : Leads later (head a) t)
    (keys : Keys (bare a).blocks) : GoesOn Grown (bare a).blocks t.blocks := by
  have firm : Firm HasKey h later := by
    unfold tconfigMerge at merges
    split at merges
    · exact merge_firm merges
    · subst merges
      exact (Grows.refl _).firm
  have onto := leads_goesOn firm (rep_leads rep) leads (fun e member => ?_) (fun _ same => same)
  · refine onto.imp ?_
    rintro ⟨e,child⟩ member ⟨e',below⟩ ⟨same,p,q,before,after,first⟩
    refine ⟨same,fun read => ?_⟩
    have inner := leads_goesOn firm before after ((keys _ member).2 read) first
    refine inner.imp ?_
    rintro ⟨e,child⟩ - ⟨e',below⟩ ⟨same,p,q,before,after,first⟩
    refine ⟨same,?_⟩
    rintro some' rfl
    cases child with
    | nil => exact some' rfl
    | cons label children rest =>
        obtain ⟨r,n,rfl,-⟩ := before
        exact absurd (first r rfl) (by rw [show q = none from after]; simp)
  · rw [← Forest.map_blocks] at member
    obtain ⟨block,inside,rfl⟩ := List.mem_map.mp member
    exact (keys block inside).1

end merge

section
variable {κ : Type} (features : Features)

-- A setting that is read is read in any state.
theorem global_less {cfg later : Config κ} (cfg' : Config κ) (done : globalOption cfg e = some later) :
    ∃ later', globalOption cfg' e = some later' := by
  obtain ⟨_ | key,value⟩ := e
  · cases done
  simp only [globalOption,Option.bind_eq_bind,Option.bind_some] at done ⊢
  cases value with
  | none => split_ifs at done ⊢ <;> simp_all
  | some value => split_ifs at done ⊢ <;> simp_all

theorem channel_less {child below : Forest Entry} (fewer : child ≠ .nil → below ≠ .nil)
    (made : newChanFromTconfigBlock e below = some chan) : ∃ chan', newChanFromTconfigBlock e child = some chan' := by
  obtain ⟨_ | key,value⟩ := e
  · cases made
  simp only [newChanFromTconfigBlock,Option.bind_eq_bind,Option.bind_some] at made ⊢
  by_cases channel : key = "channel".toList
  · rw [if_pos channel] at made ⊢
    by_cases childless : child = .nil
    · exact ⟨none,if_pos childless⟩
    · rw [if_neg (fewer childless)] at made
      obtain ⟨name,named,-⟩ := Option.bind_eq_some_iff.mp made
      exact ⟨_,by rw [if_neg childless,named]; rfl⟩
  · exact ⟨none,if_neg channel⟩

theorem network_less {cfg : Config κ} {net net' : Network} {later : Config κ × Network} (cfg' : Config κ) {child below : Forest Entry}
    (fewer : child ≠ .nil → below ≠ .nil) (same : net'.number = net.number) (done : networkOption features (cfg,net) (e,below) = some later) :
    ∃ later', networkOption features (cfg',net') (e,child) = some later' ∧ later'.2.number = later.2.number := by
  have reads : ∃ later', networkOption features (cfg',net') (e,child) = some later' := by
    obtain ⟨_ | key,value⟩ := e
    · cases done
    simp only [networkOption,Option.bind_eq_bind,Option.bind_some,same] at done ⊢
    cases text : textKeys.lookup key with
    | some o => exact ⟨_,rfl⟩
    | none =>
        cases number : numberKeys.lookup key with
        | some o =>
            simp only [text,number] at done ⊢
            by_cases unset : net.number o = -1
            · rw [if_pos unset] at done ⊢
              obtain ⟨value,rfl,-⟩ := Option.map_eq_some_iff.mp done
              exact ⟨_,rfl⟩
            · exact ⟨_,if_neg unset⟩
        | none =>
            cases script : (scriptKeys features).lookup key with
            | some o => exact ⟨_,rfl⟩
            | none =>
                simp only [text,number,script] at done ⊢
                split_ifs at done ⊢
                · exact ⟨_,rfl⟩
                · obtain ⟨value,rfl,-⟩ := Option.map_eq_some_iff.mp done
                  exact ⟨_,rfl⟩
                · exact ⟨_,rfl⟩
                · exact ⟨_,rfl⟩
                · obtain ⟨chan,made,-⟩ := Option.map_eq_some_iff.mp done
                  obtain ⟨chan',made'⟩ := channel_less fewer made
                  exact ⟨_,by rw [made']; rfl⟩
                · exact ⟨_,rfl⟩
  obtain ⟨later',done'⟩ := reads
  refine ⟨later',done',?_⟩
  rw [network_one features done,network_one features done']
  simp [readNetwork,same]

theorem block_less {cfg later : Config κ} (cfg' : Config κ) (grown : Grown old new) (done : topBlock features cfg new = some later) :
    ∃ later', topBlock features cfg' old = some later' := by
  obtain ⟨e,child⟩ := old
  obtain ⟨e',below⟩ := new
  obtain ⟨same,inner⟩ := grown
  obtain rfl : e = e' := same
  obtain ⟨_ | key,value⟩ := e
  · cases done
  simp only [topBlock,Option.bind_eq_bind,Option.bind_some] at done ⊢
  by_cases global : key = "global".toList
  · rw [if_pos global] at done ⊢
    obtain ⟨value,rfl,settings⟩ := Option.bind_eq_some_iff.mp done
    rw [Option.bind_some]
    by_cases named : value = "settings".toList
    · rw [if_pos named] at settings ⊢
      have under := inner (by simp [isRead,isGlobal,global,named])
      rw [← Forest.map_blocks,List.foldlM_map] at settings ⊢
      refine GoesOn.folds (fun _ _ => True) ?_ under trivial settings
      rintro ⟨e,inside⟩ ⟨e',inside'⟩ cfg1 cfg2 later ⟨same,-⟩ - step
      obtain rfl : e = e' := same
      exact (global_less cfg1 step).imp (fun _ done => ⟨done,trivial⟩)
    · exact ⟨cfg',if_neg named⟩
  · rw [if_neg global] at done ⊢
    by_cases network : key = "network".toList
    · rw [if_pos network] at done ⊢
      obtain ⟨⟨middle,net⟩,options,-⟩ := Option.bind_eq_some_iff.mp done
      have under := inner (by simp [isRead,isNetwork,network])
      have folded : ∃ later', child.blocks.foldlM (networkOption features) (cfg',newNetwork value) = some later' := by
        refine GoesOn.folds (fun now before => now.2.number = before.2.number) ?_ under rfl options
        rintro ⟨e,inside⟩ ⟨e',inside'⟩ ⟨cfg1,net1⟩ ⟨cfg2,net2⟩ later ⟨same,fewer⟩ alike step
        obtain rfl : e = e' := same
        exact network_less features cfg1 fewer alike step
      obtain ⟨⟨middle',net'⟩,options'⟩ := folded
      exact ⟨_,by rw [options']; rfl⟩
    · exact ⟨cfg',if_neg network⟩

theorem load_less {s t : Forest Entry} {cfg : Config κ} (goesOn : GoesOn Grown s.blocks t.blocks) (done : configEngineLoad features t = some cfg) :
    ∃ cfg' : Config κ, configEngineLoad features s = some cfg' := by
  refine GoesOn.folds (fun _ _ => True) ?_ goesOn trivial done
  intro old new cfg' _ later grown _ step
  exact (block_less features cfg' grown step).imp (fun _ done => ⟨done,trivial⟩)

theorem load_keys {t : Forest Entry} {cfg : Config κ} (done : configEngineLoad features t = some cfg) : Keys t.blocks := by
  intro block member
  obtain ⟨cfg1,cfg2,read⟩ := folds_each done block member
  obtain ⟨⟨_ | key,value⟩,child⟩ := block
  · cases read
  refine ⟨by simp [HasKey],fun here e inside => ?_⟩
  simp only [topBlock,Option.bind_eq_bind,Option.bind_some] at read
  rcases Bool.or_eq_true_iff.mp here with global | network
  · simp only [isGlobal,Bool.and_eq_true,beq_iff_eq,Option.some.injEq] at global
    obtain ⟨rfl,rfl⟩ := global
    obtain ⟨cfg3,cfg4,option⟩ := folds_each (show child.row.foldlM globalOption cfg1 = some cfg2 from read) e inside
    rintro none'
    rw [globalOption,none'] at option
    cases option
  · obtain rfl : key = "network".toList := by simpa [isNetwork] using network
    obtain ⟨⟨middle,net⟩,options,-⟩ := Option.bind_eq_some_iff.mp
      (show (child.blocks.foldlM (networkOption features) (cfg1,newNetwork value)).bind _ = some cfg2 from read)
    rw [← Forest.map_blocks] at inside
    obtain ⟨⟨⟨key',value'⟩,below⟩,there,rfl⟩ := List.mem_map.mp inside
    obtain ⟨⟨cfg3,net3⟩,later,option⟩ := folds_each options _ there
    rintro rfl
    cases option

end

theorem ofKind_goesOn (kind : Entry → Bool) (goesOn : GoesOn Grown olds news) :
    GoesOn Grown (ofKind kind olds) (ofKind kind news) := by
  refine goesOn.filter ?_
  intro x y grown
  rw [grown.1]

theorem rowOf_sublist {kind : Entry → Bool} (goesOn : GoesOn Grown olds news) (read : ∀ e, kind e = true → isRead e = true) :
    (rowOf kind olds).Sublist (rowOf kind news) := by
  induction goesOn with
  | more => exact List.nil_sublist _
  | @kept old new olds news grown _ ih =>
      rw [rowOf_cons,rowOf_cons,← grown.1]
      by_cases here : kind old.1 = true
      · rw [if_pos here,if_pos here]
        exact (grown.2 (read _ here)).row.sublist.append ih
      · simpa [here] using ih

theorem valuesOf_sublist (key : Str) {row row' : List Entry} (fewer : row.Sublist row') : (valuesOf key row).Sublist (valuesOf key row') :=
  ((fewer.map _).filter _).map _

theorem filtersOf_sublist (goesOn : GoesOn Grown olds news) (place : Nat) : (filtersOf place olds).Sublist (filtersOf place news) := by
  induction goesOn generalizing place with
  | more => exact List.nil_sublist _
  | @kept old new olds news grown _ ih =>
      unfold filtersOf
      rw [← grown.1]
      by_cases global : isGlobal old.1 = true
      · have row := (grown.2 (by simp [isRead,global])).row
        rw [if_pos global,if_pos global]
        exact ((valuesOf_sublist _ row.sublist).map _).append (ih place)
      · rw [if_neg global,if_neg global]
        by_cases network : isNetwork old.1 = true
        · have row := (grown.2 (by simp [isRead,network])).row
          rw [if_pos network,if_pos network]
          exact ((valuesOf_sublist _ row.sublist).map _).append (ih (place + 1))
        · rw [if_neg network,if_neg network]
          exact ih place

theorem filtersOf_length (place : Nat) (blocks : List (Entry × Forest Entry)) :
    (filtersOf place blocks).length = (valuesOf "console_log_flags".toList (rowOf isGlobal blocks)).length +
      (valuesOf "console".toList (rowOf isNetwork blocks)).length := by
  induction blocks generalizing place with
  | nil => rfl
  | cons block blocks ih =>
      unfold filtersOf
      by_cases global : isGlobal block.1 = true
      · simp only [global,if_true,kinds_apart global,rowOf_cons,valuesOf_append,List.length_append,List.length_map,ih place,
          Bool.false_eq_true,if_false,List.nil_append]
        omega
      · by_cases network : isNetwork block.1 = true
        · simp only [global,network,if_true,rowOf_cons,valuesOf_append,List.length_append,List.length_map,ih (place + 1),
            Bool.false_eq_true,if_false,List.nil_append]
          omega
        · simp only [global,network,rowOf_cons,Bool.false_eq_true,if_false,List.nil_append,ih place]

-- The settings that the defaults add to the blocks of one kind.
def added (kind : Entry → Bool) (conf all : List (Entry × Forest Entry)) : List Entry :=
  (rowOf kind all).drop (rowOf kind conf).length

-- Of the global settings the first text counts, and the last number.
def firstText (key : Str) (blocks : List (Entry × Forest Entry)) : Option Str := keepFirst none none (valuesOf key (rowOf isGlobal blocks))
def lastNumber (key : Str) (blocks : List (Entry × Forest Entry)) : Int := keepLast 0 (numbers (valuesOf key (rowOf isGlobal blocks)))

section
variable {κ : Type} (features : Features)

-- The file is read without a fault, it has one network, which is the only one, there is no crypto
-- module, and nothing is added that makes a difference.
structure Covered (load : Str → Option κ) (conf all : List (Entry × Forest Entry)) : Prop where
  keys : Keys conf
  network : (ofKind isNetwork conf).length = 1 ∧ (ofKind isNetwork all).length = 1
  label : ∀ block ∈ ofKind isNetwork conf, block.1.value ≠ none
  last : ∀ key ∈ ["fork".toList,"debuglevel".toList], lastNumber key all = lastNumber key conf
  first : ∀ key ∈ ["dcc_motd".toList,"hash_type".toList,"crypto_module".toList], firstText key all = firstText key conf
  crypto : (firstText "crypto_module".toList conf).bind load = none
  flags : (valuesOf "console_log_flags".toList (rowOf isGlobal all)).length = (valuesOf "console_log_flags".toList (rowOf isGlobal conf)).length
  console : valuesOf "console".toList (added isNetwork conf all) = []
  php : phpOf features (added isNetwork conf all) = []
  text : ∀ o, Given none (taken textOption o (rowOf isNetwork conf)) (taken textOption o (added isNetwork conf all))
  number : ∀ o, Given (-1) (numbers (taken numberOption o (rowOf isNetwork conf)))
    (numbers (taken numberOption o (added isNetwork conf all)))
  handlen : LastKept 32 (numbers (valuesOf "handlen".toList (rowOf isNetwork conf)))
    (numbers (valuesOf "handlen".toList (added isNetwork conf all)))
  scripts : ∀ o, taken (scriptOption features) o (added isNetwork conf all) = []

def started (load : Str → Option κ) (all : List (Entry × Forest Entry)) : Config κ :=
  let cfg : Config κ := readFile features emptyConfig all
  { cfg with crypto := cfg.cryptoName.bind load }

theorem init_reads {load : Str → Option κ} {t : Forest Entry} {cfg : Config κ} (init : configEngineInit features load t = some cfg) :
    cfg = started features load t.blocks := by
  obtain ⟨loaded,done,same⟩ := Option.bind_eq_some_iff.mp init
  cases same
  rw [load_reads features done]
  rfl

theorem rehash_reads {t : Forest Entry} {newcfg : Config κ} (cfg : Config κ) (loaded : configEngineLoad features t = some newcfg) :
    eggRehash features cfg t = (overOld ((ofKind isNetwork t.blocks).map (networkOf features)) cfg.networks).map
      (fun networks => { readFile features (emptyConfig : Config κ) t.blocks with networks := networks }) := by
  rw [eggRehash,loaded,load_reads features loaded]
  simp only [readFile,emptyConfig,Option.bind_eq_bind,Option.bind_some,List.nil_append]
  cases overOld _ cfg.networks <;> rfl

-- A network that is copied over with itself, with fewer settings.
theorem copied_same (e : Entry) (child below : Forest Entry) (grown : child.row ++ new = below.row) :
    copied (networkOf features (e,below)) (networkOf features (e,child)) = networkOf features (e,below) ↔
      (∀ o, Given none (taken textOption o child.row) (taken textOption o new)) ∧
      (∀ o, Given (-1) (numbers (taken numberOption o child.row)) (numbers (taken numberOption o new))) ∧
      LastKept 32 (numbers (valuesOf "handlen".toList child.row)) (numbers (valuesOf "handlen".toList new)) ∧
      ∀ o, taken (scriptOption features) o new = [] := by
  have fields : copied (networkOf features (e,below)) (networkOf features (e,child)) = networkOf features (e,below) ↔
      (∀ o, keepFirst none none (taken textOption o child.row) = keepFirst none none (taken textOption o below.row)) ∧
      (∀ o, keepFirst (-1) (-1) (numbers (taken numberOption o child.row)) = keepFirst (-1) (-1) (numbers (taken numberOption o below.row))) ∧
      keepLast 32 (numbers (valuesOf "handlen".toList child.row)) = keepLast 32 (numbers (valuesOf "handlen".toList below.row)) ∧
      ∀ o, taken (scriptOption features) o child.row = taken (scriptOption features) o below.row := by
    simp only [copied,networkOf,readNetwork,newNetwork,Forest.map_blocks,Network.mk.injEq,funext_iff,List.nil_append,true_and,and_true]
  rw [fields,← grown]
  simp only [taken_append,numbers_append,valuesOf_append,← keepFirst_given,← keepLast_kept]
  constructor
  · rintro ⟨text,number,handlen,scripts⟩
    exact ⟨fun o => (text o).symm,fun o => (number o).symm,handlen.symm,fun o => List.self_eq_append_right.mp (scripts o)⟩
  · rintro ⟨text,number,handlen,scripts⟩
    exact ⟨fun o => (text o).symm,fun o => (number o).symm,handlen.symm,fun o => List.self_eq_append_right.mpr (scripts o)⟩

-- Only a single network can be copied over.
theorem overOld_alone {news olds made : List Network} (overlaid : overOld news olds = some made) : olds.length = 1 ∧ news ≠ [] := by
  cases olds with
  | nil => cases overlaid
  | cons otmp rest =>
      by_cases none' : news = []
      · simp [overOld,none'] at overlaid
      · simp only [overOld,none',if_false] at overlaid
        obtain ⟨copies,-,ends⟩ := Option.bind_eq_some_iff.mp overlaid
        by_cases last : rest = []
        · exact ⟨by simp [last],none'⟩
        · simp [last] at ends

theorem overOld_one (otmp ntmp : Network) (label : Str) (old : otmp.label = some label) (new : ntmp.label = some label) :
    overOld [ntmp] [otmp] = some [copied otmp ntmp] := by
  simp [overOld,copyOver,old,new]

theorem one_network (goesOn : GoesOn Grown conf all) (alone : (ofKind isNetwork all).length = 1) (some' : ofKind isNetwork conf ≠ []) :
    ∃ e child below new, ofKind isNetwork conf = [(e,child)] ∧ ofKind isNetwork all = [(e,below)] ∧ child.row ++ new = below.row := by
  have network : ∀ block ∈ ofKind isNetwork conf, isNetwork block.1 = true := fun block member => (List.mem_filter.mp member).2
  have grows := ofKind_goesOn isNetwork goesOn
  generalize ofKind isNetwork conf = a,ofKind isNetwork all = b at network grows alone some'
  cases grows with
  | more => exact absurd rfl some'
  | @kept old new olds news grown rest =>
      have last : news = [] := List.eq_nil_of_length_eq_zero (by simpa using alone)
      subst last
      have shorter := rest.length
      have last : olds = [] := List.eq_nil_of_length_eq_zero (by simpa using shorter)
      subst last
      obtain ⟨e,child⟩ := old
      obtain ⟨e',below⟩ := new
      obtain ⟨same,inner⟩ := grown
      obtain rfl : e = e' := same
      obtain ⟨more,longer⟩ := (inner (by simp [isRead,network (e,child) (by simp)])).row
      exact ⟨e,child,below,more,rfl,rfl,longer⟩

theorem filters_same (goesOn : GoesOn Grown conf all) :
    filtersOf 0 conf = filtersOf 0 all ↔
      (valuesOf "console_log_flags".toList (rowOf isGlobal all)).length = (valuesOf "console_log_flags".toList (rowOf isGlobal conf)).length ∧
      (valuesOf "console".toList (rowOf isNetwork all)).length = (valuesOf "console".toList (rowOf isNetwork conf)).length := by
  have fewer := filtersOf_sublist goesOn 0
  have flags := (valuesOf_sublist "console_log_flags".toList
    (rowOf_sublist goesOn (show ∀ e, isGlobal e = true → isRead e = true from fun e here => by simp [isRead,here]))).length_le
  have console := (valuesOf_sublist "console".toList
    (rowOf_sublist goesOn (show ∀ e, isNetwork e = true → isRead e = true from fun e here => by simp [isRead,here]))).length_le
  have lengths := filtersOf_length 0 all
  have lengths' := filtersOf_length 0 conf
  constructor
  · intro same
    rw [same] at lengths'
    omega
  · rintro ⟨flags,console⟩
    exact fewer.eq_of_length (by omega)

theorem config_same (load : Str → Option κ) (conf all : List (Entry × Forest Entry)) (networks : List Network) :
    ({ readFile features (emptyConfig : Config κ) conf with networks := networks } = started features load all) ↔
      (∀ key ∈ ["fork".toList,"debuglevel".toList], lastNumber key conf = lastNumber key all) ∧
      (∀ key ∈ ["dcc_motd".toList,"hash_type".toList,"crypto_module".toList], firstText key conf = firstText key all) ∧
      none = (firstText "crypto_module".toList all).bind load ∧
      filtersOf 0 conf = filtersOf 0 all ∧ phpOf features (rowOf isNetwork conf) = phpOf features (rowOf isNetwork all) ∧
      networks = (started features load all).networks := by
  simp only [lastNumber,firstText,started,readFile,emptyConfig,Config.mk.injEq,List.nil_append,List.length_nil,List.mem_cons,List.not_mem_nil,or_false,
    forall_eq_or_imp,forall_eq,and_assoc]

theorem rehash_alike (load : Str → Option κ) (goesOn : GoesOn Grown conf all) (keys : Keys conf) :
    (overOld ((ofKind isNetwork conf).map (networkOf features)) (started features load all).networks).map
        (fun networks => { readFile features (emptyConfig : Config κ) conf with networks := networks }) =
      some (started features load all) ↔ Covered features load conf all := by
  have nets : (started features load all).networks = (ofKind isNetwork all).map (networkOf features) := rfl
  by_cases alone : (ofKind isNetwork all).length = 1 ∧ ofKind isNetwork conf ≠ []
  · obtain ⟨e,child,below,new,inConf,inAll,longer⟩ := one_network goesOn alone.1 alone.2
    have rowsConf : rowOf isNetwork conf = child.row := by simp [rowOf_kind,inConf]
    have rowsAll : rowOf isNetwork all = child.row ++ new := by simp [rowOf_kind,inAll,longer]
    have addedHere : added isNetwork conf all = new := by rw [added,rowsConf,rowsAll,List.drop_left]
    have nets' : (started features load all).networks = [networkOf features (e,below)] := by rw [nets,inAll,List.map_singleton]
    by_cases label : e.value = none
    · have faults : overOld [networkOf features (e,child)] [networkOf features (e,below)] = none := by
        have unnamed : (networkOf features (e,below)).label = none := label
        simp [overOld,copyOver,unnamed]
      rw [nets',inConf,List.map_singleton,faults]
      constructor
      · intro bad
        cases bad
      · intro covered
        exact absurd label (covered.label (e,child) (by simp [inConf]))
    obtain ⟨value,label⟩ := Option.ne_none_iff_exists'.mp label
    have overlaid := overOld_one (networkOf features (e,below)) (networkOf features (e,child)) value label label
    have copies := copied_same features e child below longer
    have filters := filters_same goesOn
    rw [nets,inConf,inAll,List.map_singleton,List.map_singleton,overlaid,Option.map_some,Option.some.injEq,config_same,nets',
      List.singleton_inj,copies,filters,← rowsConf,← addedHere]
    have options : rowOf isNetwork all = rowOf isNetwork conf ++ added isNetwork conf all := by rw [rowsAll,rowsConf,addedHere]
    rw [options]
    simp only [valuesOf_append,phpOf_append]
    constructor
    · rintro ⟨last,first,crypto,⟨flags,console⟩,php,text,number,handlen,scripts⟩
      refine ⟨keys,⟨by simp [inConf],alone.1⟩,by simp [inConf,label],fun key member => (last key member).symm,
        fun key member => (first key member).symm,?_,flags,?_,List.self_eq_append_right.mp php,text,number,handlen,scripts⟩
      · rw [first _ (by simp)]
        exact crypto.symm
      · rw [List.length_append] at console
        exact List.eq_nil_of_length_eq_zero (by omega)
    · intro covered
      refine ⟨fun key member => (covered.last key member).symm,fun key member => (covered.first key member).symm,
        ?_,⟨covered.flags,by rw [covered.console,List.append_nil]⟩,List.self_eq_append_right.mpr covered.php,covered.text,covered.number,
        covered.handlen,covered.scripts⟩
      rw [covered.first _ (by simp)]
      exact covered.crypto.symm
  · constructor
    · intro same
      obtain ⟨made,overlaid,-⟩ := Option.map_eq_some_iff.mp same
      have single := overOld_alone overlaid
      rw [nets,List.length_map] at single
      exact absurd ⟨single.1,fun none => single.2 (by rw [none,List.map_nil])⟩ alone
    · intro covered
      refine absurd ⟨covered.network.2,?_⟩ alone
      intro none
      have one := covered.network.1
      rw [none] at one
      cases one

end

-- Defaults for a setting that the file has, and for one that it has not but that is as without it.
def plainFeatures : Features := ⟨false,false,false,false⟩

def efnet (p : Nat) (key value : String) : Placed Entry :=
  .one (p,⟨some "network".toList,some "efnet".toList⟩) (.one (p + 1,⟨some key.toList,some value.toList⟩) .nil)

def handlenHeap : Heap Entry :=
  [some ⟨⟨some "network".toList,some "*".toList⟩,none,none,none,some 1⟩,
    some ⟨⟨some "nick".toList,some "troll".toList⟩,none,some 2,some 0,none⟩,
    some ⟨⟨some "handlen".toList,some "32".toList⟩,some 1,none,none,none⟩,
    some ⟨⟨some "network".toList,some "efnet".toList⟩,none,none,none,some 4⟩,
    some ⟨⟨some "nick".toList,some "bot".toList⟩,none,none,some 3,none⟩]

def handlenMerged : Heap Entry :=
  store (alloc handlenHeap ⟨⟨some "handlen".toList,some "32".toList⟩,some 4,none,none,none⟩) 4
    ⟨⟨some "nick".toList,some "bot".toList⟩,none,some 5,some 3,none⟩

def withHandlen : Forest Entry :=
  .one ⟨some "network".toList,some "efnet".toList⟩
    (.cons ⟨some "nick".toList,some "bot".toList⟩ .nil (.one ⟨some "handlen".toList,some "32".toList⟩ .nil))

theorem handlen_merges : tconfigMerge handlenHeap (some 0) (head (efnet 3 "nick" "bot")) handlenMerged :=
  done_ends (show runFor mergeStep 12 _ = _ from rfl)

theorem handlen_leads : Leads handlenMerged (head (efnet 3 "nick" "bot")) withHandlen :=
  ⟨3,_,rfl,rfl,rfl,⟨4,_,rfl,rfl,rfl,rfl,5,_,rfl,rfl,rfl,rfl,rfl⟩,rfl⟩

-- A nick that only the defaults have.
def nickHeap : Heap Entry :=
  [some ⟨⟨some "network".toList,some "*".toList⟩,none,none,none,some 1⟩,
    some ⟨⟨some "nick".toList,some "troll".toList⟩,none,none,some 0,none⟩,
    some ⟨⟨some "network".toList,some "efnet".toList⟩,none,none,none,some 3⟩,
    some ⟨⟨some "handlen".toList,some "9".toList⟩,none,none,some 2,none⟩]

end Trollbot.ConfigEngine

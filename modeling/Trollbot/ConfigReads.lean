import Trollbot.ConfigEngine

-- What the loader makes of a file.
namespace Trollbot.ConfigEngine
open Tconfig Linked Options

def isGlobal (e : Entry) : Bool := e.key == some "global".toList && e.value == some "settings".toList
def isNetwork (e : Entry) : Bool := e.key == some "network".toList

-- The settings in the blocks of one kind, in the order of the file.
def rowOf (kind : Entry → Bool) (blocks : List (Entry × Forest Entry)) : List Entry :=
  blocks.flatMap (fun block => if kind block.1 then block.2.row else [])

def ofKind (kind : Entry → Bool) (blocks : List (Entry × Forest Entry)) : List (Entry × Forest Entry) :=
  blocks.filter (fun block => kind block.1)

theorem rowOf_kind (kind : Entry → Bool) (blocks : List (Entry × Forest Entry)) :
    rowOf kind blocks = (ofKind kind blocks).flatMap (fun block => block.2.row) := by
  induction blocks with
  | nil => rfl
  | cons block blocks ih =>
      by_cases here : kind block.1 = true
      · simpa [rowOf,ofKind,here] using ih
      · simpa [rowOf,ofKind,here] using ih

theorem rowOf_cons (kind : Entry → Bool) (block : Entry × Forest Entry) (blocks : List (Entry × Forest Entry)) :
    rowOf kind (block :: blocks) = (if kind block.1 then block.2.row else []) ++ rowOf kind blocks := rfl

theorem rowOf_one (kind : Entry → Bool) (block : Entry × Forest Entry) :
    rowOf kind [block] = if kind block.1 then block.2.row else [] := by simp [rowOf]

def taken {ι : Type} [DecidableEq ι] (option : Str → Option ι) (o : ι) (row : List Entry) : List (Option Str) :=
  values (some o) (row.map (fun e => (e.key.bind option,e.value)))

def valuesOf (key : Str) (row : List Entry) : List (Option Str) := values (some key) (row.map (fun e => (e.key,e.value)))

def numbers (texts : List (Option Str)) : List Int := texts.filterMap (fun text => text.map atoi)

def channelOf (block : Entry × Forest Entry) : Option Channel := (newChanFromTconfigBlock block.1 block.2).join

@[simp] theorem numbers_nil : numbers [] = [] := rfl
@[simp] theorem numbers_one (text : Str) : numbers [some text] = [atoi text] := rfl

@[simp] theorem numbers_append (first second : List (Option Str)) : numbers (first ++ second) = numbers first ++ numbers second := by
  simp [numbers]

@[simp] theorem valuesOf_nil (key : Str) : valuesOf key [] = [] := rfl

@[simp] theorem taken_nil {ι : Type} [DecidableEq ι] (option : Str → Option ι) (o : ι) : taken option o [] = [] := rfl

@[simp] theorem valuesOf_append (key : Str) (first second : List Entry) :
    valuesOf key (first ++ second) = valuesOf key first ++ valuesOf key second := by simp [valuesOf]

@[simp] theorem taken_append {ι : Type} [DecidableEq ι] (option : Str → Option ι) (o : ι) (first second : List Entry) :
    taken option o (first ++ second) = taken option o first ++ taken option o second := by simp [taken]

theorem valuesOf_one (key : Str) (e : Entry) : valuesOf key [e] = if e.key = some key then [e.value] else [] := values_cons _ _ _

theorem taken_one {ι : Type} [DecidableEq ι] (option : Str → Option ι) (o : ι) (e : Entry) :
    taken option o [e] = if e.key.bind option = some o then [e.value] else [] := values_cons _ _ _

def textOption (key : Str) : Option TextOption := textKeys.lookup key
def numberOption (key : Str) : Option NumberOption := numberKeys.lookup key
def scriptOption (features : Features) (key : Str) : Option ScriptOption := (scriptKeys features).lookup key

theorem keepFirst_or (x v : Option Str) : x.or v = keepFirst none x [v] := by
  cases x <;> simp [keepFirst]

def phpOf (features : Features) (row : List Entry) : List (Option Str) :=
  if features.php = true then valuesOf "phpscript".toList row else []

@[simp] theorem phpOf_nil (features : Features) : phpOf features [] = [] := by
  unfold phpOf
  split <;> rfl

theorem phpOf_one (features : Features) (e : Entry) :
    phpOf features [e] = if features.php = true ∧ e.key = some "phpscript".toList then [e.value] else [] := by
  unfold phpOf
  by_cases php : features.php = true
  · rw [if_pos php,valuesOf_one]
    exact if_congr (by simp [php]) rfl rfl
  · simp [php]

@[simp] theorem phpOf_append (features : Features) (first second : List Entry) :
    phpOf features (first ++ second) = phpOf features first ++ phpOf features second := by
  unfold phpOf
  split <;> simp

section
variable {κ : Type} (features : Features)

-- What settings do to the configuration and to the network that is being read.
def readGlobal (cfg : Config κ) (row : List Entry) : Config κ :=
  { cfg with
    fork := keepLast cfg.fork (numbers (valuesOf "fork".toList row))
    debugLevel := keepLast cfg.debugLevel (numbers (valuesOf "debuglevel".toList row))
    dccMotd := keepFirst none cfg.dccMotd (valuesOf "dcc_motd".toList row)
    hashType := keepFirst none cfg.hashType (valuesOf "hash_type".toList row)
    cryptoName := keepFirst none cfg.cryptoName (valuesOf "crypto_module".toList row)
    filters := cfg.filters ++ (valuesOf "console_log_flags".toList row).map (fun flags => ⟨flags,none,.console⟩) }

def readSettings (cfg : Config κ) (row : List Entry) : Config κ :=
  { cfg with
    filters := cfg.filters ++ (valuesOf "console".toList row).map (fun flags => ⟨flags,some cfg.networks.length,.dcc⟩)
    phpScripts := cfg.phpScripts ++ phpOf features row }

def readNetwork (net : Network) (blocks : List (Entry × Forest Entry)) : Network :=
  let row := blocks.map Prod.fst
  { net with
    text := fun o => keepFirst none (net.text o) (taken textOption o row)
    number := fun o => keepFirst (-1) (net.number o) (numbers (taken numberOption o row))
    handlen := keepLast net.handlen (numbers (valuesOf "handlen".toList row))
    scripts := fun o => net.scripts o ++ taken (scriptOption features) o row
    servers := net.servers ++ (valuesOf "server".toList row).map newServer
    chans := net.chans ++ blocks.filterMap channelOf }

theorem readGlobal_append (cfg : Config κ) (first second : List Entry) :
    readGlobal cfg (first ++ second) = readGlobal (readGlobal cfg first) second := by simp [readGlobal]

theorem readSettings_append (cfg : Config κ) (first second : List Entry) :
    readSettings features cfg (first ++ second) = readSettings features (readSettings features cfg first) second := by simp [readSettings]

theorem readNetwork_append (net : Network) (first second : List (Entry × Forest Entry)) :
    readNetwork features net (first ++ second) = readNetwork features (readNetwork features net first) second := by
  simp [readNetwork]

theorem global_one {cfg later : Config κ} (done : globalOption cfg e = some later) : later = readGlobal cfg [e] := by
  obtain ⟨_ | key,value⟩ := e
  · cases done
  have apart : ["fork".toList,"console_log_flags".toList,"debuglevel".toList,"dcc_motd".toList,"hash_type".toList,
      "crypto_module".toList].Nodup := by decide
  simp only [globalOption,readGlobal,valuesOf_one,keepFirst_or,Option.bind_eq_bind,Option.bind_some,Option.some.injEq] at done ⊢
  generalize "fork".toList = fork,"console_log_flags".toList = flags,"debuglevel".toList = level,
    "dcc_motd".toList = motd,"hash_type".toList = hash,"crypto_module".toList = crypto at apart done ⊢
  simp only [List.nodup_cons,List.mem_cons,List.not_mem_nil,or_false,not_or,not_false_eq_true,List.nodup_nil,and_true] at apart
  cases value with
  | none => split_ifs at done ⊢ <;> simp_all
  | some value => split_ifs at done ⊢ <;> simp_all

theorem lookup_name {ι : Type} {pairs : List (Str × ι)} {o : ι} (found : pairs.lookup key = some o) : key ∈ pairs.map Prod.fst := by
  induction pairs with
  | nil => cases found
  | cons pair rest ih =>
      by_cases same : key = pair.1
      · simp [same]
      · have other : (key == pair.1) = false := by simpa using same
        rw [List.lookup_cons,other] at found
        exact List.mem_cons_of_mem _ (ih found)

def otherKeys : List Str := ["console".toList,"handlen".toList,"phpscript".toList,"server".toList,"channel".toList]

theorem text_apart (found : textOption key = some o) :
    numberOption key = none ∧ scriptOption features key = none ∧ key ∉ otherKeys := by
  obtain ⟨javascript,tcl,php,python⟩ := features
  have all : ∀ key ∈ textKeys.map Prod.fst,
      numberOption key = none ∧ scriptOption ⟨javascript,tcl,php,python⟩ key = none ∧ key ∉ otherKeys := by
    cases javascript <;> cases tcl <;> cases php <;> cases python <;> decide
  exact all key (lookup_name found)

theorem number_apart (found : numberOption key = some o) : scriptOption features key = none ∧ key ∉ otherKeys := by
  obtain ⟨javascript,tcl,php,python⟩ := features
  have all : ∀ key ∈ numberKeys.map Prod.fst, scriptOption ⟨javascript,tcl,php,python⟩ key = none ∧ key ∉ otherKeys := by
    cases javascript <;> cases tcl <;> cases php <;> cases python <;> decide
  exact all key (lookup_name found)

theorem script_apart (found : scriptOption features key = some o) : key ∉ otherKeys := by
  obtain ⟨javascript,tcl,php,python⟩ := features
  have all : ∀ key ∈ (scriptKeys ⟨javascript,tcl,php,python⟩).map Prod.fst, key ∉ otherKeys := by
    cases javascript <;> cases tcl <;> cases php <;> cases python <;> decide
  exact all key (lookup_name found)

theorem chan_made (made : newChanFromTconfigBlock e child = some chan) : channelOf (e,child) = chan := by
  rw [channelOf,made]
  rfl

theorem other_channel (key : Str) (value : Option Str) (child : Forest Entry) (other : key ≠ "channel".toList) :
    channelOf (⟨some key,value⟩,child) = none := by
  unfold channelOf newChanFromTconfigBlock
  generalize "channel".toList = channel at other ⊢
  simp [other]

theorem network_one {cfg : Config κ} {net : Network} {child : Forest Entry} {later : Config κ × Network}
    (done : networkOption features (cfg,net) (e,child) = some later) :
    later = (readSettings features cfg [e],readNetwork features net [(e,child)]) := by
  obtain ⟨_ | key,value⟩ := e
  · cases done
  have tables : textKeys.lookup key = textOption key ∧ numberKeys.lookup key = numberOption key ∧
      (scriptKeys features).lookup key = scriptOption features key := ⟨rfl,rfl,rfl⟩
  have apart : otherKeys.Nodup := by decide
  have chan := other_channel key value child
  have made : ∀ chan, newChanFromTconfigBlock ⟨some key,value⟩ child = some chan → channelOf (⟨some key,value⟩,child) = chan :=
    fun _ => chan_made
  have ofText := fun (o : TextOption) (found : textOption key = some o) => text_apart features found
  have ofNumber := fun (o : NumberOption) (found : numberOption key = some o) => number_apart features found
  have ofScript := fun (o : ScriptOption) (found : scriptOption features key = some o) => script_apart features found
  simp only [networkOption,readSettings,readNetwork,tables,valuesOf_one,phpOf_one,taken_one,keepFirst_or,
    Network.setText,Network.setNumber,Network.addScript,List.map_cons,List.map_nil,List.filterMap_cons,List.filterMap_nil,
    otherKeys,Option.bind_eq_bind,Option.bind_some] at ofText ofNumber ofScript apart chan done ⊢
  generalize newChanFromTconfigBlock ⟨some key,value⟩ child = new,channelOf (⟨some key,value⟩,child) = channel' at made chan done ⊢
  generalize "console".toList = console,"handlen".toList = handlen,"phpscript".toList = phpscript,"server".toList = server,
    "channel".toList = channel at apart ofText ofNumber ofScript chan done ⊢
  simp only [List.nodup_cons,List.mem_cons,List.not_mem_nil,or_false,not_or,not_false_eq_true,List.nodup_nil,
    and_true] at apart ofText ofNumber ofScript
  cases text : textOption key with
  | some o =>
      obtain ⟨number,script,other⟩ := ofText o text
      have once : (fun other => if other = o then keepFirst none (net.text o) [value] else net.text other) =
          fun other => keepFirst none (net.text other) (if o = other then [value] else []) := by
        funext other
        by_cases same : other = o
        · simp [same]
        · simp [same,Ne.symm same]
      rw [text] at done
      cases done
      simp [number,script,other,chan,once]
  | none =>
      cases number : numberOption key with
      | some o =>
          obtain ⟨script,other⟩ := ofNumber o number
          simp only [text,number] at done
          by_cases unset : net.number o = -1
          · obtain ⟨value,rfl,rfl⟩ := Option.map_eq_some_iff.mp (by simpa [unset] using done)
            have once : (fun other => if other = o then atoi value else net.number other) =
                fun other => keepFirst (-1) (net.number other) (numbers (if o = other then [some value] else [])) := by
              funext other
              by_cases same : other = o
              · simp [same,keepFirst,unset]
              · simp [same,Ne.symm same]
            simp [script,other,chan,once]
          · have once : net.number = fun other => keepFirst (-1) (net.number other) (numbers (if o = other then [value] else [])) := by
              funext other
              by_cases same : o = other
              · rw [if_pos same,keepFirst_set (same ▸ unset)]
              · simp [same]
            rw [if_neg unset] at done
            cases done
            simp [script,other,chan,← once]
      | none =>
          cases script : scriptOption features key with
          | some o =>
              have other := ofScript o script
              have once : (fun other => if other = o then net.scripts o ++ [value] else net.scripts other) =
                  fun other => net.scripts other ++ if o = other then [value] else [] := by
                funext other
                by_cases same : other = o
                · simp [same]
                · simp [same,Ne.symm same]
              simp only [text,number,script,Option.some.injEq] at done
              subst done
              simp [other,chan,once]
          | none =>
              clear ofText ofNumber ofScript tables
              obtain ⟨⟨ch,cp,cs,cc⟩,⟨hp,hs,hc⟩,⟨ps,pc⟩,sc⟩ := apart
              simp only [text,number,script] at done
              by_cases isConsole : key = console
              · subst isConsole
                simp only [if_true,Option.some.injEq] at done
                subst done
                simp [ch,cp,cs,cc,chan]
              · by_cases isHandlen : key = handlen
                · subst isHandlen
                  obtain ⟨value,rfl,rfl⟩ := Option.map_eq_some_iff.mp (by simpa [isConsole] using done)
                  simp [hp,hs,hc,isConsole,chan]
                · by_cases isPhp : key = phpscript
                  · subst isPhp
                    by_cases php : features.php = true
                    · simp only [isConsole,isHandlen,php,and_self,if_true,if_false,Option.some.injEq] at done
                      subst done
                      simp [ps,pc,isConsole,isHandlen,chan,php]
                    · simp only [isConsole,isHandlen,php,ps,pc,and_false,if_false,Option.some.injEq,Bool.false_eq_true] at done
                      subst done
                      simp [ps,pc,isConsole,isHandlen,chan,php]
                  · by_cases isServer : key = server
                    · subst isServer
                      simp only [isConsole,isHandlen,isPhp,false_and,if_true,if_false,Option.some.injEq] at done
                      subst done
                      simp [sc,isConsole,isHandlen,isPhp,chan]
                    · by_cases isChannel : key = channel
                      · subst isChannel
                        simp only [isConsole,isHandlen,isPhp,isServer,false_and,if_true,if_false] at done
                        obtain ⟨chan,rfl,rfl⟩ := Option.map_eq_some_iff.mp done
                        rw [made chan rfl]
                        cases chan <;> simp [isConsole,isHandlen,isPhp,isServer]
                      · simp only [isConsole,isHandlen,isPhp,isServer,isChannel,false_and,if_false,Option.some.injEq] at done
                        subst done
                        simp [isConsole,isHandlen,isPhp,isServer,isChannel,chan]

theorem global_reads {row : List Entry} {cfg later : Config κ} (done : row.foldlM globalOption cfg = some later) :
    later = readGlobal cfg row := by
  induction row generalizing cfg with
  | nil =>
      cases done
      simp [readGlobal]
  | cons e row ih =>
      rw [List.foldlM_cons] at done
      obtain ⟨middle,first,rest⟩ := Option.bind_eq_some_iff.mp done
      rw [ih rest,global_one first]
      exact (readGlobal_append cfg [e] row).symm

theorem network_reads {blocks : List (Entry × Forest Entry)} {cfg : Config κ} {net : Network} {later : Config κ × Network}
    (done : blocks.foldlM (networkOption features) (cfg,net) = some later) :
    later = (readSettings features cfg (blocks.map Prod.fst),readNetwork features net blocks) := by
  induction blocks generalizing cfg net with
  | nil =>
      cases done
      simp [readSettings,readNetwork,valuesOf,taken,values]
  | cons block blocks ih =>
      obtain ⟨e,child⟩ := block
      rw [List.foldlM_cons] at done
      obtain ⟨middle,first,rest⟩ := Option.bind_eq_some_iff.mp done
      rw [network_one features first] at rest
      rw [ih rest,← readSettings_append,← readNetwork_append]
      rfl

def networkOf (block : Entry × Forest Entry) : Network := readNetwork features (newNetwork block.1.value) block.2.blocks

-- Filters keep the place of their network.
def filtersOf (place : Nat) : List (Entry × Forest Entry) → List LogFilter
  | [] => []
  | block :: rest =>
    if isGlobal block.1 then
      (valuesOf "console_log_flags".toList block.2.row).map (fun flags => ⟨flags,none,.console⟩) ++ filtersOf place rest
    else if isNetwork block.1 then
      (valuesOf "console".toList block.2.row).map (fun flags => ⟨flags,some place,.dcc⟩) ++ filtersOf (place + 1) rest
    else filtersOf place rest

-- What the loader makes of a file.
def readFile (cfg : Config κ) (blocks : List (Entry × Forest Entry)) : Config κ :=
  let settings := rowOf isGlobal blocks
  { cfg with
    fork := keepLast cfg.fork (numbers (valuesOf "fork".toList settings))
    debugLevel := keepLast cfg.debugLevel (numbers (valuesOf "debuglevel".toList settings))
    dccMotd := keepFirst none cfg.dccMotd (valuesOf "dcc_motd".toList settings)
    hashType := keepFirst none cfg.hashType (valuesOf "hash_type".toList settings)
    cryptoName := keepFirst none cfg.cryptoName (valuesOf "crypto_module".toList settings)
    filters := cfg.filters ++ filtersOf cfg.networks.length blocks
    phpScripts := cfg.phpScripts ++ phpOf features (rowOf isNetwork blocks)
    networks := cfg.networks ++ (ofKind isNetwork blocks).map (networkOf features) }

theorem kinds_apart (global : isGlobal e = true) : isNetwork e = false := by
  unfold isGlobal isNetwork at *
  simp only [Bool.and_eq_true,beq_iff_eq] at global
  rw [global.1]
  decide

theorem block_reads {cfg later : Config κ} {block : Entry × Forest Entry} (done : topBlock features cfg block = some later) :
    later = readFile features cfg [block] := by
  obtain ⟨⟨_ | key,value⟩,child⟩ := block
  · cases done
  simp only [topBlock,Option.bind_eq_bind,Option.bind_some] at done
  by_cases global : key = "global".toList
  · have other : isNetwork ⟨some key,value⟩ = false := by
      rw [global]
      rfl
    rw [if_pos global] at done
    obtain ⟨value,rfl,settings⟩ := Option.bind_eq_some_iff.mp done
    by_cases named : value = "settings".toList
    · have here : isGlobal ⟨some key,some value⟩ = true := by
        rw [global,named]
        rfl
      rw [if_pos named] at settings
      rw [global_reads settings]
      simp [readFile,readGlobal,rowOf_one,ofKind,filtersOf,here,other]
    · have here : isGlobal ⟨some key,some value⟩ = false := by simpa [isGlobal] using fun _ => named
      rw [if_neg named] at settings
      cases settings
      simp [readFile,rowOf_one,ofKind,filtersOf,here,other]
  · have other : isGlobal ⟨some key,value⟩ = false := by
      have differs : (some key == some "global".toList) = false := by simpa using global
      unfold isGlobal
      rw [differs,Bool.false_and]
    rw [if_neg global] at done
    by_cases network : key = "network".toList
    · have here : isNetwork ⟨some key,value⟩ = true := by
        rw [network]
        rfl
      rw [if_pos network] at done
      obtain ⟨⟨middle,net⟩,options,done⟩ := Option.bind_eq_some_iff.mp done
      cases done
      have read := network_reads features options
      simp only [Prod.mk.injEq] at read
      obtain ⟨rfl,rfl⟩ := read
      simp [readFile,readSettings,networkOf,rowOf_one,ofKind,filtersOf,here,other,valuesOf,values,Forest.map_blocks]
    · have here : isNetwork ⟨some key,value⟩ = false := by simpa [isNetwork] using network
      rw [if_neg network] at done
      cases done
      simp [readFile,rowOf_one,ofKind,filtersOf,here,other]

theorem readFile_cons (cfg : Config κ) (block : Entry × Forest Entry) (blocks : List (Entry × Forest Entry)) :
    readFile features (readFile features cfg [block]) blocks = readFile features cfg (block :: blocks) := by
  have row := fun kind => rowOf_cons kind block blocks
  by_cases global : isGlobal block.1 = true
  · have other := kinds_apart global
    simp only [readFile,row,rowOf_one,ofKind,filtersOf,global,other,valuesOf_append,numbers_append,keepLast_append,keepFirst_append,
      phpOf_nil,List.append_assoc,List.append_nil,List.nil_append,List.filter_cons,List.filter_nil,List.map_nil,if_true,if_false,
      Bool.false_eq_true]
  · by_cases network : isNetwork block.1 = true
    · simp only [readFile,row,rowOf_one,ofKind,filtersOf,global,network,valuesOf_nil,numbers_nil,keepLast_nil,keepFirst_nil,phpOf_append,
        List.append_assoc,List.append_nil,List.nil_append,List.filter_cons,List.filter_nil,List.map_cons,List.map_nil,
        List.length_append,List.length_singleton,if_true,if_false,Bool.false_eq_true,List.cons_append]
    · simp only [readFile,row,rowOf_one,ofKind,filtersOf,global,network,valuesOf_nil,numbers_nil,keepLast_nil,keepFirst_nil,phpOf_nil,
        List.append_nil,List.nil_append,List.filter_cons,List.filter_nil,List.map_nil,if_false,Bool.false_eq_true]

theorem load_reads {t : Forest Entry} {cfg : Config κ} (done : configEngineLoad features t = some cfg) :
    cfg = readFile features emptyConfig t.blocks := by
  have all : ∀ (blocks : List (Entry × Forest Entry)) (cfg later : Config κ),
      blocks.foldlM (topBlock features) cfg = some later → later = readFile features cfg blocks := by
    intro blocks
    induction blocks with
    | nil =>
        intro cfg later done
        cases done
        simp [readFile,rowOf,ofKind,filtersOf]
    | cons block blocks ih =>
        intro cfg later done
        rw [List.foldlM_cons] at done
        obtain ⟨middle,first,rest⟩ := Option.bind_eq_some_iff.mp done
        rw [ih middle later rest,block_reads features first,readFile_cons]
  exact all t.blocks emptyConfig cfg done

end

end Trollbot.ConfigEngine

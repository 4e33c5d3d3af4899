import Trollbot.TconfigMerge
import Trollbot.Foundation.Options

namespace Trollbot.ConfigEngine
open Tconfig Options

def isspace (c : Char) : Bool := c ∈ [' ','\t','\n','\x0b','\x0c','\r']

def digits (s : Str) : Int := (s.takeWhile Char.isDigit).foldl (fun n c => 10 * n + (c.toNat - '0'.toNat)) 0

-- Numbers that an int does not hold are left as they are.
def atoi (s : Str) : Int :=
  match s.dropWhile isspace with
  | '-' :: s => -digits s
  | '+' :: s => digits s
  | s => digits s

-- What the program is built with.
structure Features where
  javascript : Bool
  tcl : Bool
  php : Bool
  python : Bool

structure ChanEggVar where
  key : Option Str
  value : Option Str
deriving DecidableEq

structure Channel where
  name : Option Str
  eggVars : List ChanEggVar
deriving DecidableEq

structure Server where
  host : Option Str
  port : Int
deriving DecidableEq

-- The options of a network that take the first text, and those that take the first number but -1.
inductive TextOption where
  | nick
  | defaultFlags
  | dccMotd
  | altnick
  | userfile
  | chanfile
  | realname
  | ident
  | vhost
deriving DecidableEq

inductive NumberOption where
  | neverGiveUp
  | connectDelay
  | dccPort
deriving DecidableEq

inductive ScriptOption where
  | javascript
  | tcl
  | python
deriving DecidableEq

inductive LogHandler where
  | console
  | dcc
deriving DecidableEq

-- The network is its place in the list.
structure LogFilter where
  flags : Option Str
  net : Option Nat
  handler : LogHandler
deriving DecidableEq

structure Network where
  label : Option Str
  text : TextOption → Option Str
  number : NumberOption → Int
  handlen : Int
  scripts : ScriptOption → List (Option Str)
  servers : List Server
  chans : List Channel

structure Config (κ : Type) where
  fork : Int
  debugLevel : Int
  dccMotd : Option Str
  hashType : Option Str
  cryptoName : Option Str
  crypto : Option κ
  filters : List LogFilter
  phpScripts : List (Option Str)
  networks : List Network

def newServer (hostport : Option Str) : Server :=
  match hostport with
  | none => ⟨none,6667⟩
  | some s => if ':' ∈ s then ⟨some (s.takeWhile (fun c => c ≠ ':')),atoi (s.dropWhile (fun c => c ≠ ':')).tail⟩ else ⟨some s,6667⟩

def newNetwork (label : Option Str) : Network := ⟨label,fun _ => none,fun _ => -1,32,fun _ => [],[],[]⟩

-- The egg_vars are a list, and a new one is put in front. The outer none is a read of a null key or of
-- a channel that new_channel has not made, the inner one is NULL.
def newChanFromTconfigBlock (tcfg : Entry) (child : Forest Entry) : Option (Option Channel) := do
  let key ← tcfg.key
  if key = "channel".toList then
    if child = .nil then some none else do
    let name ← tcfg.value
    some (some ⟨some name,child.row.foldl (fun vars e => ⟨e.key,e.value⟩ :: vars) []⟩)
  else some none

def textKeys : List (Str × TextOption) :=
  [("nick".toList,.nick),("default-flags".toList,.defaultFlags),("dcc_motd".toList,.dccMotd),("altnick".toList,.altnick),
    ("userfile".toList,.userfile),("chanfile".toList,.chanfile),("realname".toList,.realname),("ident".toList,.ident),
    ("vhost".toList,.vhost)]

def numberKeys : List (Str × NumberOption) :=
  [("never-give-up".toList,.neverGiveUp),("server-cycle-wait".toList,.connectDelay),("dcc_port".toList,.dccPort)]

def scriptKeys (features : Features) : List (Str × ScriptOption) :=
  (if features.javascript then [("javascript".toList,.javascript)] else []) ++
    (if features.tcl then [("tclscript".toList,.tcl)] else []) ++
    (if features.python then [("pythonscript".toList,.python),("pyscript".toList,.python)] else [])

section
variable {κ : Type} (features : Features)

-- One setting of the global block.
def globalOption (cfg : Config κ) (search : Entry) : Option (Config κ) := do
  let key ← search.key
  if key = "fork".toList then do
    let value ← search.value
    some { cfg with fork := atoi value }
  else if key = "console_log_flags".toList then
    some { cfg with filters := cfg.filters ++ [⟨search.value,none,.console⟩] }
  else if key = "debuglevel".toList then do
    let value ← search.value
    some { cfg with debugLevel := atoi value }
  else if key = "dcc_motd".toList then some { cfg with dccMotd := cfg.dccMotd.or search.value }
  else if key = "hash_type".toList then some { cfg with hashType := cfg.hashType.or search.value }
  else if key = "crypto_module".toList then some { cfg with cryptoName := cfg.cryptoName.or search.value }
  else some cfg

def Network.setText (net : Network) (option : TextOption) (value : Option Str) : Network :=
  { net with text := fun other => if other = option then (net.text option).or value else net.text other }

def Network.setNumber (net : Network) (option : NumberOption) (value : Int) : Network :=
  { net with number := fun other => if other = option ∧ net.number option = -1 then value else net.number other }

def Network.addScript (net : Network) (option : ScriptOption) (value : Option Str) : Network :=
  { net with scripts := fun other => if other = option then net.scripts option ++ [value] else net.scripts other }

-- One setting of a network block; the network is the last one. botnick is what nick is.
def networkOption (st : Config κ × Network) (search : Entry × Forest Entry) : Option (Config κ × Network) := do
  let (cfg,net) := st
  let key ← search.1.key
  let value := search.1.value
  match textKeys.lookup key,numberKeys.lookup key,(scriptKeys features).lookup key with
  | some option,_,_ => some (cfg,net.setText option value)
  | none,some option,_ =>
    if net.number option = -1 then value.map (fun value => (cfg,net.setNumber option (atoi value))) else some (cfg,net)
  | none,none,some option => some (cfg,net.addScript option value)
  | none,none,none =>
    if key = "console".toList then
      some ({ cfg with filters := cfg.filters ++ [⟨value,some cfg.networks.length,.dcc⟩] },net)
    else if key = "handlen".toList then value.map (fun value => (cfg,{ net with handlen := atoi value }))
    else if key = "phpscript".toList ∧ features.php = true then some ({ cfg with phpScripts := cfg.phpScripts ++ [value] },net)
    else if key = "server".toList then some (cfg,{ net with servers := net.servers ++ [newServer value] })
    else if key = "channel".toList then
      (newChanFromTconfigBlock search.1 search.2).map (fun chan => (cfg,{ net with chans := net.chans ++ chan.toList }))
    else some (cfg,net)

-- One block of the file.
def topBlock (cfg : Config κ) (topmost : Entry × Forest Entry) : Option (Config κ) := do
  let key ← topmost.1.key
  if key = "global".toList then do
    let value ← topmost.1.value
    if value = "settings".toList then topmost.2.row.foldlM globalOption cfg else some cfg
  else if key = "network".toList then do
    let (cfg,net) ← topmost.2.blocks.foldlM (networkOption features) (cfg,newNetwork topmost.1.value)
    some { cfg with networks := cfg.networks ++ [net] }
  else some cfg

def emptyConfig : Config κ := ⟨0,0,none,none,none,none,[],[],[]⟩

def configEngineLoad (tcfg : Forest Entry) : Option (Config κ) := tcfg.blocks.foldlM (topBlock features) emptyConfig

-- After the defaults have been merged into the file. `load` stands for t_crypto_module_load.
def configEngineInit (load : Str → Option κ) (tcfg : Forest Entry) : Option (Config κ) := do
  let cfg : Config κ ← configEngineLoad features tcfg
  some { cfg with crypto := cfg.cryptoName.bind load }

-- What egg_rehash does to the configured fields of a network.
def copied (otmp ntmp : Network) : Network := { ntmp with servers := otmp.servers, chans := otmp.chans }
def emptied (otmp : Network) : Network := { otmp with servers := [], chans := [] }

def copyOver (otmp : Network) : List Network → Option (List Network)
  | [] => some []
  | ntmp :: rest => do
    let oldLabel ← otmp.label
    let newLabel ← ntmp.label
    if tstrcasecmp oldLabel newLabel = 0 then (copyOver (emptied otmp) rest).map (copied otmp ntmp :: ·)
    else (copyOver otmp rest).map (ntmp :: ·)

-- The record after the one that has been copied is freed, and then read if there is one.
def overOld (news : List Network) : List Network → Option (List Network)
  | [] => none
  | otmp :: rest => if news = [] then none else do
    let news ← copyOver otmp news
    if rest = [] then some news else none

def eggRehash (g_cfg : Config κ) (tcfg : Forest Entry) : Option (Config κ) := do
  let newcfg : Config κ ← configEngineLoad features tcfg
  let networks ← overOld newcfg.networks g_cfg.networks
  some { newcfg with networks := networks }

end

end Trollbot.ConfigEngine

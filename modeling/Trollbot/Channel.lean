import Trollbot.IrcParse
import Trollbot.Trigger

namespace Trollbot.Irc
open CBuffer IrcParse

structure ChannelUser where
  nick : Option Str
  ident : Option Str
  modes : Option Str
  host : Option Str
deriving DecidableEq

-- The time is the text it is read from, none for the time of the call.
structure ChannelBan where
  chan : Option Str
  mask : Option Str
  who : Option Str
  time : Option Str
deriving DecidableEq

structure Channel where
  name : Option Str
  userList : Chain ChannelUser
  chanmode : Option Str
  topic : Option Str
  banlist : Chain ChannelBan

inductive NetworkStatus where
  | disconnected
  | inprogress
  | nonblockconnect
  | waitingconnect
  | notready
  | connected
  | authorized
  | idle
deriving DecidableEq

-- The built-in handlers that follow the channels; a script's handler, or another built-in one, is a
-- number.
inductive Handler where
  | newJoin
  | newPart
  | newQuit
  | newKick
  | trollTrigUpdateTopic
  | trollParseWho
  | channelListPopulate
  | channelSetModes
  | channelSetTopic
  | channelBanlistAdd
  | trollTrigUpdateNick
  | trollTrigUpdateMode
  | trollNickInUseHandler
  | trollUserHostHandler
  | trollTrigChannelRedirect
  | other (id : Nat)
deriving DecidableEq

structure Network where
  nick : Str
  botnick : Option Str
  altnick : Option Str
  shost : Option Str
  status : NetworkStatus
  chans : List Channel
  trigs : TrigTable Handler

-- What a message makes the bot do: a trigger is run, a line goes to the server, the listener is opened.
inductive Output where
  | ran (type : TrigType) (place : Nat)
  | sent (line : Str)
  | listen
deriving DecidableEq

-- None is a crash.
abbrev Result := Option (Network × List Output)

def tsocketPrintf (line : Str) : Output := .sent (line.take 2047 ++ ['\n'])

-- A cell of a token array: the outer none is an access outside, the inner one a null pointer.
def slot (slots : Option Slots) (i : Nat) : Option (Option Str) := do
  let cells ← slots
  let cell ← cells[i]?
  cell

-- tstrcasecmp reads both strings.
def sameText (first second : Option Str) : Option Bool := do
  let first ← first
  let second ← second
  some (decide (tstrcasecmp first second = 0))

-- The first place that passes, where every test up to it has to return.
def findPlace (test : α → Option Bool) : List α → Option (Option Nat)
  | [] => some none
  | x :: rest => do
    let found ← test x
    if found then some (some 0) else (findPlace test rest).map (fun place => place.map (· + 1))

def channelChannelUserFind (chan : Channel) (find : Option Str) : Option (Option Nat) :=
  findPlace (fun cuser => sameText cuser.nick find) chan.userList.items

def networkChannelFind (net : Network) (name : Option Str) : Option (Option Nat) :=
  findPlace (fun chan => sameText chan.name name) net.chans

def newChannel (name : Str) : Channel := ⟨some name,.empty,none,none,.empty⟩

def Network.modifyChan (net : Network) (place : Nat) (f : Channel → Channel) : Network :=
  { net with chans := net.chans.modify place f }

-- A user that is not found is not deleted.
def Channel.delUser (chan : Channel) : Option Nat → Channel
  | none => chan
  | some place => { chan with userList := chan.userList.del place }

-- The user's entry, which is made if there is none.
def Channel.enter (chan : Channel) (nick : Option Str) : Option Nat → Channel × Nat
  | some place => (chan,place)
  | none => ({ chan with userList := chan.userList.add ⟨nick,none,none,none⟩ },chan.userList.items.length)

def Channel.modifyUser (chan : Channel) (place : Nat) (f : ChannelUser → ChannelUser) : Channel :=
  { chan with userList := chan.userList.modify place f }

-- The handlers' search for a channel: nothing is done without one.
def onChannel (net : Network) (found : Option (Option Nat)) (f : Channel → Option (Channel × List Output)) : Result := do
  match ← found with
  | none => some (net,[])
  | some place => do
    let chan ← net.chans[place]?
    let (chan,out) ← f chan
    some (net.modifyChan place (fun _ => chan),out)

-- Every channel in turn.
def eachChannel (net : Network) (f : Channel → Option Channel) : Result := do
  let chans ← net.chans.mapM f
  some ({ net with chans := chans },[])

end Trollbot.Irc

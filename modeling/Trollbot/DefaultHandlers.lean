import Trollbot.DccOffer
import Trollbot.Passwords

-- What the default handlers of private messages answer, and the one of notices.
namespace Trollbot.Irc
open IrcParse Decimal Passwords Users

-- What they read besides the network and the message: the configuration, and functions of the network. A trigger's
-- use count is never the same at two calls, so whatever the records, the clock and the files are by then, a function tells.
structure Surroundings where
  setting : DccLogin.Setting
  defaultFlags : Option Str
  vhost : Option Str
  dccPort : Int
  users : Network → Chain User
  time : Network → Nat
  strftime : Network → Str
  gethostbyname : Network → Str → Option InAddr
  -- whether egg_save(NULL), which writes the files of every network, comes back
  eggSave : Network → Option Unit

def privmsg (nick said : Str) : Output := tsocketPrintf ("PRIVMSG ".toList ++ nick ++ " :".toList ++ said)

def ctcpReply (nick said : Str) : Output := tsocketPrintf ("NOTICE ".toList ++ nick ++ " :".toList ++ '\x01' :: said ++ ['\x01'])

-- The prefix is read without a check, its nick is printed.
def returnCtcp (said : Str) (net : Network) (data : IrcData) : Result := do
  let pre ← data.pre
  some (net,[ctcpReply (shown pre.nick) said])

def returnCtcpVersion : Network → IrcData → Result := returnCtcp "VERSION Trollbot v1.0.0 by poutine".toList

def doJoinChannels (net : Network) (_data : IrcData) : Result := (joinChannels net).map (fun joins => (net,joins))

def checkUserPass (net : Network) (_data : IrcData) : Result := some (net,[])

-- What stands behind the word /QUOTE: the loop runs to it, or to the null pointer. The outer none is a read outside.
def quoted : Slots → Option (Option (Str × Str))
  | some none :: _ => some none
  | some (some word) :: rest =>
    if tstrcasecmp word "/QUOTE".toList ≠ 0 then quoted rest
    else match rest with
      | some none :: _ | some (some _) :: some none :: _ => some none
      | some (some first) :: some (some second) :: _ => some (some (first,second))
      | _ => none
  | _ => none

def trollUndernetHack (net : Network) (data : IrcData) : Result :=
  match data.cParams with
  | none => some (net,[])
  | some _ => do
    let target ← slot data.cParams 0
    if ← sameText target (some "AUTH".toList) then do
      let slots ← data.rest
      let answer ← quoted slots
      some (net,(answer.map (fun words => tsocketPrintf (words.1 ++ ' ' :: words.2))).toList)
    else some (net,[])

section
variable (e : Surroundings)

-- The time is printed as an int.
def returnCtcpPing (net : Network) : IrcData → Result := returnCtcp ("PING ".toList ++ printed (asInt (e.time net % 2 ^ 32))) net

def returnCtcpTime (net : Network) : IrcData → Result := returnCtcp ("TIME ".toList ++ e.strftime net) net

-- The nick is read only for an answer.
def handleReverseDccChat (net : Network) (data : IrcData) : Result :=
  let (dcc,out) := reverseDccChat (e.gethostbyname net) ⟨net.shost,e.vhost,e.dccPort⟩ (shown (data.pre.bind (·.nick)))
  if data.pre = none ∧ out ≠ [] then none else some ({ net with shost := dcc.shost },out)

def handleInitiateDccChat (net : Network) (data : IrcData) : Result := (initiateDccChat data).map (fun _ => (net,[]))

def handleNewUserPass (net : Network) (data : IrcData) : Result := do
  let (saved,lines) ← newUserPass e.setting (e.users net).items data
  let _ ← saved
  some (net,lines.map tsocketPrintf)

def welcome (netNick nick : Str) : List Output :=
  [privmsg nick ("Welcome to trollbot, your username is '".toList ++ nick ++ ['\'']),
    privmsg nick ("Type '/msg ".toList ++ netNick ++ " pass <your new password>' to continue".toList)]

-- The record that the search ends at has the nick, or a new one is made.
def handleIntroduceUser (net : Network) (data : IrcData) : Result := do
  let _ ← introduceUser e.defaultFlags e.setting.hashType (e.users net) data.pre
  let pre ← data.pre
  let nick ← pre.nick
  if ((walkTo nick (e.users net).items).map (fun stop => stop.2.nick)) = some (some nick) then
    some (net,[privmsg nick "Another user already exists by that nick".toList])
  else some (net,welcome net.nick nick)

-- The process exits behind the line: of a run past it only what has been sent so far is the bot's.
def disconnectBot (net : Network) (_data : IrcData) : Result := do
  e.eggSave net
  some (net,[tsocketPrintf "QUIT :Trollbot v1.0".toList])

-- The numbers are those of the default table. The commands of a DCC session are among the others, but no line of the
-- server runs them.
def defaultHandlers (scripts : Nat → Network → IrcData → Result) : Nat → Network → IrcData → Result
  | 0 => returnCtcpVersion
  | 1 => handleReverseDccChat e
  | 2 => doJoinChannels
  | 3 => returnCtcpPing e
  | 4 => returnCtcpTime e
  | 5 => handleInitiateDccChat
  | 6 => handleNewUserPass e
  | 7 => checkUserPass
  | 8 => handleIntroduceUser e
  | 9 => disconnectBot e
  | 23 => trollUndernetHack
  | id => scripts id

end

end Trollbot.Irc

import Trollbot.IrcProto

namespace Trollbot.Irc
open CBuffer IrcParse

def isspace (c : Char) : Bool := c ∈ [' ','\t','\n','\x0b','\x0c','\r']

-- 0 for a match. A wildcard skips to the character after it and does not look back.
def trollMatchwilds : Str → Str → Nat
  | [],[] => 0
  | _ :: _,[] => 1
  | [],c :: needle => if c = '*' ∧ needle = [] then 0 else 1
  | h :: haystack,c :: needle =>
    if c = '\\' then
      match needle with
      | [] => 1
      | d :: needle => if d = h then trollMatchwilds haystack needle else 1
    else if c = '?' then trollMatchwilds haystack needle
    else if c = '*' then
      trollMatchwilds ((h :: haystack).dropWhile (fun d => some d ≠ needle.head?)) needle
    else if c = '%' then
      trollMatchwilds ((h :: haystack).dropWhile (fun d => !isspace d && some d ≠ needle.head?)) needle
    else if c = '~' then
      if isspace h then trollMatchwilds (haystack.dropWhile isspace) needle else 1
    else if c = h then trollMatchwilds haystack needle
    else 1

def andThen (first : Result) (second : Network → Result) : Result := do
  let (net,out) ← first
  let (net,more) ← second net
  some (net,out ++ more)

section
variable (scripts : Nat → Network → IrcData → Result)

def countUse (net : Network) (type : TrigType) (place : Nat) : Network :=
  { net with trigs := fun other =>
      if other = type then (net.trigs other).modify place (fun trig => { trig with usecount := trig.usecount + 1 })
      else net.trigs other }

def runHandler (net : Network) (data : IrcData) (type : TrigType) (place : Nat) (handler : Handler) : Result := do
  let (net,out) ← effect scripts handler (countUse net type place) data
  some (net,.ran type place :: out)

-- A trigger without a handler is passed.
def runTrigger (net : Network) (data : IrcData) (type : TrigType) (place : Nat) (trig : Trigger Handler) : Result :=
  match trig.handler with
  | none => some (net,[])
  | some handler => runHandler scripts net data type place handler

def tryTrigger (net : Network) (data : IrcData) (type : TrigType) (place : Nat) (trig : Trigger Handler) (found : Bool) : Result :=
  if found then runTrigger scripts net data type place trig else some (net,[])

-- The loops over a list of triggers, from the list as it is at the start.
def eachTrigger (data : IrcData) (type : TrigType) (hit : Trigger Handler → Option Bool) :
    Nat → List (Trigger Handler) → Network → Result
  | _,[],net => some (net,[])
  | place,trig :: rest,net => do
    let found ← hit trig
    andThen (tryTrigger scripts net data type place trig found) (fun net => eachTrigger data type hit (place + 1) rest net)

def allTriggers (net : Network) (data : IrcData) (type : TrigType) (hit : Trigger Handler → Option Bool) : Result :=
  eachTrigger scripts data type hit 0 (net.trigs type).items net

-- Where data->rest[0] is there, a test of data->rest_str.
def onRest (data : IrcData) (test : Str → Bool) : Option Bool := do
  match ← slot data.rest 0 with
  | none => some false
  | some _ => do
    let str ← data.restStr
    some (test str)

def startsWith (mask str : Str) : Bool := mask.isPrefixOf str

def wildMatch (str mask : Str) : Bool := trollMatchwilds str mask = 0

-- newmask holds 1024 characters.
def newmask (parts : Str) : Str := parts.take 1023

-- What "%s" makes of a null pointer.
def shown (str : Option Str) : Str := str.getD "(null)".toList

-- "%s %s!%s@%s" of the channel and the prefix.
def maskOf (chan : Option Str) (pre : IrcPrefix) : Str :=
  newmask (shown chan ++ ' ' :: shown pre.nick ++ '!' :: shown pre.user ++ '@' :: shown pre.host)

-- The first trigger whose mask the text starts with ends the loop.
def pubTrigger (data : IrcData) (str : Str) : Nat → List (Trigger Handler) → Network → Result
  | _,[],net => some (net,[])
  | place,trig :: rest,net =>
    if startsWith trig.mask str then runTrigger scripts net data .pub place trig
    else pubTrigger data str (place + 1) rest net

def pubTriggers (net : Network) (data : IrcData) : Result :=
  match data.restStr with
  | none => some (net,[])
  | some str => pubTrigger scripts data str 0 (net.trigs .pub).items net

def matchPrivmsg (net : Network) (data : IrcData) : Result := do
  match ← slot data.cParams 0 with
  | none => some (net,[])
  | some target => do
    let botnick ← net.botnick
    if tstrcasecmp target botnick = 0 then
      andThen (allTriggers scripts net data .msg (fun trig => onRest data (startsWith trig.mask)))
        (fun net => allTriggers scripts net data .msgm (fun trig => onRest data (fun str => wildMatch str trig.mask)))
    else
      andThen (pubTriggers scripts net data)
        (fun net => allTriggers scripts net data .pubm (fun trig => onRest data (fun str => wildMatch str trig.mask)))

-- Only the first trigger of the list is looked at.
def matchJoin (net : Network) (data : IrcData) : Result :=
  match data.rest with
  | none => some (net,[])
  | some _ => do
    let chan ← slot data.rest 0
    let pre ← data.pre
    let trig ← (net.trigs .join).items.head?
    tryTrigger scripts net data .join 0 trig (wildMatch (maskOf chan pre) trig.mask)

def partMask (data : IrcData) (trig : Trigger Handler) : Option Bool :=
  match data.rest with
  | none => some false
  | some _ => do
    let pre ← data.pre
    if pre.nick.isSome ∧ pre.user.isSome ∧ pre.host.isSome then do
      let chan ← slot data.rest 0
      some (wildMatch (maskOf chan pre) trig.mask)
    else some false

def topicMask (data : IrcData) (trig : Trigger Handler) : Option Bool :=
  match data.cParams,data.restStr with
  | some _,some str => do
    match ← slot data.cParams 0 with
    | none => some false
    | some chan => some (wildMatch (newmask (chan ++ ' ' :: str)) trig.mask)
  | some _,none => do
    let _ ← slot data.cParams 0
    some false
  | none,_ => some false

-- The reason is printed without a check.
def kickMask (data : IrcData) (trig : Trigger Handler) : Option Bool :=
  match data.cParams with
  | none => some false
  | some _ => do
    match ← slot data.cParams 0 with
    | none => some false
    | some chan => do
      match ← slot data.cParams 1 with
      | none => some false
      | some nick => some (wildMatch (newmask (chan ++ ' ' :: nick ++ ' ' :: shown data.restStr)) trig.mask)

-- The handler of a RAW trigger is called without a check.
def eachRaw (data : IrcData) : Nat → List (Trigger Handler) → Network → Result
  | _,[],net => some (net,[])
  | place,trig :: rest,net =>
    if trig.mask = data.command then do
      let handler ← trig.handler
      andThen (runHandler scripts net data .raw place handler) (fun net => eachRaw data (place + 1) rest net)
    else eachRaw data (place + 1) rest net

def triggerMatch (net : Network) (data : IrcData) : Result :=
  if data.command = "PRIVMSG".toList then matchPrivmsg scripts net data
  else if data.command = "JOIN".toList then matchJoin scripts net data
  else if data.command = "PART".toList then allTriggers scripts net data .part (partMask data)
  else if data.command = "QUIT".toList then some (net,[])
  else if data.command = "TOPIC".toList then allTriggers scripts net data .topc (topicMask data)
  else if data.command = "KICK".toList then allTriggers scripts net data .kick (kickMask data)
  else if data.command = "NOTICE".toList then
    allTriggers scripts net data .notc (fun trig => onRest data (fun str => wildMatch str trig.mask))
  else eachRaw scripts data 0 (net.trigs .raw).items net

def pong (net : Network) (data : IrcData) : Result := do
  match ← slot data.rest 0 with
  | none => some (net,[])
  | some server => some (net,[tsocketPrintf ("PONG :".toList ++ server ++ ['\n'])])

-- The host the server gives, from the USERHOST reply.
def serverHost (net : Network) (data : IrcData) : Network × List Output :=
  match net.shost,data.restStr with
  | none,some str =>
    if '@' ∈ str then ({ net with shost := some (str.dropWhile (fun c => c ≠ '@')).tail },[.listen]) else (net,[])
  | _,_ => (net,[])

-- What parse_irc_line does with a decoded line.
def dispatch (net : Network) (data : IrcData) : Result :=
  andThen
    (if data.command = "PING".toList then pong net data
      else if data.command = "302".toList then some (serverHost net data)
      else some (net,[]))
    (fun net => triggerMatch scripts net data)

def parseIrcLine (net : Network) (buffer : Str) : Result := do
  let data ← decode net.nick buffer
  dispatch scripts net data

end

-- The triggers of add_default_triggers that messages of the server reach; `others` are the handlers
-- of private messages and of the notice.
def builtin (type : TrigType) (mask : Str) (handler : Handler) : Trigger Handler :=
  newTrigger none type mask none (some handler)

def defaultRaw : List (Trigger Handler) :=
  [builtin .raw "352".toList .trollParseWho,builtin .raw "353".toList .channelListPopulate,
    builtin .raw "324".toList .channelSetModes,builtin .raw "332".toList .channelSetTopic,
    builtin .raw "367".toList .channelBanlistAdd,builtin .raw "NICK".toList .trollTrigUpdateNick,
    builtin .raw "MODE".toList .trollTrigUpdateMode,builtin .raw "433".toList .trollNickInUseHandler,
    builtin .raw "376".toList .trollUserHostHandler,builtin .raw "470".toList .trollTrigChannelRedirect]

end Trollbot.Irc

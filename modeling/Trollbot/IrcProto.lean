import Trollbot.Channel

namespace Trollbot.Irc
open CBuffer IrcParse

-- The lines sent after the bot's own join.
def joinLines (name : Str) : List Output :=
  ["MODE ".toList ++ name,"MODE ".toList ++ name ++ " b".toList,"MODE ".toList ++ name ++ " e".toList,
    "MODE ".toList ++ name ++ " I".toList,"WHO ".toList ++ name].map tsocketPrintf

def newJoin (net : Network) (data : IrcData) : Result := do
  let pre ← data.pre
  onChannel net (findPlace (fun chan => sameText data.restStr chan.name) net.chans) (fun chan => do
    let found ← channelChannelUserFind chan pre.nick
    let (chan,place) := chan.enter pre.nick found
    let chan := chan.modifyUser place (fun cuser => { cuser with host := pre.host, ident := pre.user })
    let own ← sameText net.botnick pre.nick
    let name ← chan.name
    some (chan,if own then joinLines name else []))

def newPart (net : Network) (data : IrcData) : Result := do
  let pre ← data.pre
  let name ← slot data.cParams 0
  onChannel net (findPlace (fun chan => sameText name chan.name) net.chans) (fun chan => do
    let found ← channelChannelUserFind chan pre.nick
    some (chan.delUser found,[]))

-- Bound to SIGN, which nothing dispatches.
def newQuit (net : Network) (data : IrcData) : Result := do
  let pre ← data.pre
  eachChannel net (fun chan => do
    let found ← channelChannelUserFind chan pre.nick
    some (chan.delUser found))

def newKick (net : Network) (data : IrcData) : Result := do
  let kicked ← slot data.cParams 1
  let name ← slot data.cParams 0
  let nick ← kicked
  let rejoin ← if nick = net.nick then name.map (fun name => [tsocketPrintf ("JOIN ".toList ++ name)]) else some []
  let (net,_) ← onChannel net (networkChannelFind net name) (fun chan => do
    let found ← channelChannelUserFind chan kicked
    some (chan.delUser found,[]))
  let _ ← data.pre
  some (net,rejoin)

def trollTrigUpdateNick (net : Network) (data : IrcData) : Result := do
  let pre ← data.pre
  eachChannel net (fun chan => do
    match ← channelChannelUserFind chan pre.nick with
    | none => some chan
    | some place => do
      let nick ← slot data.rest 0
      some (chan.modifyUser place (fun cuser => { cuser with nick := nick })))

def isPrefixMode (c : Char) : Bool := c == '@' || c == '+'

def prefixModes (ptr : Str) : Str := (ptr.takeWhile isPrefixMode).map (fun c => if c = '@' then 'o' else 'v')

def populateUser (chan : Channel) (ptr : Str) : Option Channel := do
  let nick := ptr.dropWhile isPrefixMode
  let found ← channelChannelUserFind chan (some nick)
  let (chan,place) := chan.enter (some nick) found
  let modes := prefixModes ptr
  some (chan.modifyUser place (fun cuser => { cuser with modes := if modes = [] then none else some modes }))

-- The users of a channel without a record go to the last record there is: the new one is appended
-- to it, and chan stays.
def channelListPopulate (net : Network) (data : IrcData) : Result := do
  if net.chans = [] then none else do
  let name ← slot data.cParams 2
  let found ← findPlace (fun chan => sameText chan.name name) net.chans
  let (net,place) ← match found with
    | some place => some (net,place)
    | none => name.map (fun name => ({ net with chans := net.chans ++ [newChannel name] },net.chans.length - 1))
  let chan ← net.chans[place]?
  let users ← data.rest.bind words
  let chan ← users.foldlM populateUser chan
  some (net.modifyChan place (fun _ => chan),[])

def channelSetModes (net : Network) (data : IrcData) : Result :=
  if net.chans = [] then some (net,[]) else do
  let name ← slot data.cParams 1
  onChannel net (networkChannelFind net name) (fun chan => do
    let modes ← slot data.cParams 2
    let modes ← modes
    some ({ chan with chanmode := if modes = [] then none else some modes },[]))

def channelSetTopic (net : Network) (data : IrcData) : Result :=
  if net.chans = [] then some (net,[]) else do
  let name ← slot data.cParams 1
  onChannel net (networkChannelFind net name) (fun chan => some ({ chan with topic := data.restStr },[]))

def trollTrigUpdateTopic (net : Network) (data : IrcData) : Result :=
  if net.chans = [] then some (net,[]) else do
  let name ← slot data.cParams 0
  onChannel net (findPlace (fun chan => sameText name chan.name) net.chans)
    (fun chan => some ({ chan with topic := data.restStr },[]))

def channelBanlistAdd (net : Network) (data : IrcData) : Result :=
  if net.chans = [] then some (net,[]) else do
  let name ← slot data.cParams 1
  onChannel net (networkChannelFind net name) (fun chan => do
    let mask ← slot data.cParams 2
    let known ← findPlace (fun ban : ChannelBan => do
      let old ← ban.mask
      let new ← mask
      some (decide (old = new))) chan.banlist.items
    match known with
    | some _ => some (chan,[])
    | none => do
      let who ← slot data.cParams 3
      let time ← slot data.cParams 4
      let time ← time
      some ({ chan with banlist := chan.banlist.add ⟨name,mask,who,some time⟩ },[]))

def trollParseWho (net : Network) (data : IrcData) : Result := do
  let name ← slot data.cParams 1
  onChannel net (networkChannelFind net name) (fun chan => do
    let nick ← slot data.cParams 5
    match ← channelChannelUserFind chan nick with
    | some _ => some (chan,[])
    | none => do
      let ident ← slot data.cParams 2
      let host ← slot data.cParams 3
      some ({ chan with userList := chan.userList.add ⟨nick,ident,none,host⟩ },[]))

def trollTrigChannelRedirect (net : Network) (data : IrcData) : Result := do
  let name ← slot data.cParams 2
  onChannel net (networkChannelFind net name) (fun chan => do
    let name ← slot data.cParams 3
    some ({ chan with name := name },[]))

def trollNickInUseHandler (net : Network) (_data : IrcData) : Result := do
  let altnick ← net.altnick
  let line := tsocketPrintf ("NICK ".toList ++ altnick)
  some ({ net with botnick := some altnick },[line,line])

-- The names with commas, none where they stop fitting: then nothing is sent. The commas are not
-- counted, so that the buffer can still be overrun.
def joinNames (numbytes : Nat) (joinstr : Str) : List Channel → Option (Option Str)
  | [] => some (some joinstr)
  | chan :: rest => do
    let name ← chan.name
    let numbytes := numbytes + name.length
    if bufferSize - 3 < numbytes then some none
    else if bufferSize < joinstr.length + name.length + 2 then none
    else joinNames numbytes (joinstr ++ name ++ [',']) rest

def joinChannels (net : Network) : Option (List Output) :=
  if net.chans = [] then some [] else do
  let names ← joinNames 5 [] net.chans
  some ((names.map (fun names => tsocketPrintf ("JOIN ".toList ++ names.dropLast ++ ['\n']))).toList)

def trollUserHostHandler (net : Network) (_data : IrcData) : Result := do
  let joins ← joinChannels net
  some ({ net with status := .idle },tsocketPrintf ("USERHOST ".toList ++ net.nick) :: joins)

-- The mode letters kept for a user. A letter takes the place of a space; without one the string is
-- resized, and the resizing clears the last letter that was there.
def addMode (c : Char) : Option Str → Option (Option Str)
  | none => some (some [c])
  | some modes =>
    if c ∈ modes then some (some modes)
    else if ' ' ∈ modes then some (some (modes.takeWhile (fun d => d ≠ ' ') ++ c :: (modes.dropWhile (fun d => d ≠ ' ')).tail))
    else do
      let (buffer,_) ← tcrealloc0 (ofText modes) (modes.length + 2) modes.length
      let kept ← text buffer
      some (some (kept ++ [c]))

def dropMode (c : Char) (modes : Option Str) : Option Str :=
  modes.map (fun modes =>
    if c ∈ modes then modes.takeWhile (fun d => d ≠ c) ++ ' ' :: (modes.dropWhile (fun d => d ≠ c)).tail else modes)

def changeMode (plus : Bool) (c : Char) (modes : Option Str) : Option (Option Str) :=
  if plus then addMode c modes else some (dropMode c modes)

-- One letter of a MODE line: the sign, the argument's place and the channel so far.
structure ModeState where
  plus : Bool
  argIndex : Nat
  chan : Channel

def userMode (data : IrcData) (c : Char) (st : ModeState) : Option ModeState := do
  let nick ← slot data.cParams (st.argIndex + 2)
  let found ← channelChannelUserFind st.chan nick
  match found with
  | none => some { st with argIndex := st.argIndex + 1 }
  | some place => do
    let cuser ← st.chan.userList.items[place]?
    let modes ← changeMode st.plus c cuser.modes
    some { st with argIndex := st.argIndex + 1, chan := st.chan.modifyUser place (fun cuser => { cuser with modes := modes }) }

def banMode (data : IrcData) (st : ModeState) : Option ModeState :=
  if st.plus then do
    let name ← slot data.cParams 0
    let mask ← slot data.cParams (st.argIndex + 2)
    let pre ← data.pre
    some { st with
      argIndex := st.argIndex + 1
      chan := { st.chan with banlist := st.chan.banlist.add ⟨name,mask,pre.nick,none⟩ } }
  else do
    let found ← findPlace (fun ban : ChannelBan => do
      let mask ← slot data.cParams (st.argIndex + 2)
      sameText ban.mask mask) st.chan.banlist.items
    some { st with
      argIndex := st.argIndex + 1
      chan := match found with
        | none => st.chan
        | some place => { st.chan with banlist := st.chan.banlist.del place } }

def modeStep (data : IrcData) (st : ModeState) (c : Char) : Option ModeState :=
  if c = '+' then some { st with plus := true }
  else if c = '-' then some { st with plus := false }
  else if c = 'o' ∨ c = 'v' then userMode data c st
  else if c = 'b' then banMode data st
  else some st

def trollTrigUpdateMode (net : Network) (data : IrcData) : Result := do
  let name ← slot data.cParams 0
  onChannel net (networkChannelFind net name) (fun chan => do
    let newchanmode ← slot data.cParams 1
    let newchanmode ← newchanmode
    let st ← newchanmode.foldlM (modeStep data) ⟨true,0,chan⟩
    some (st.chan,[]))

-- What the handlers do; `scripts` stands for those that are not followed here.
def effect (scripts : Nat → Network → IrcData → Result) : Handler → Network → IrcData → Result
  | .newJoin => newJoin
  | .newPart => newPart
  | .newQuit => newQuit
  | .newKick => newKick
  | .trollTrigUpdateTopic => trollTrigUpdateTopic
  | .trollParseWho => trollParseWho
  | .channelListPopulate => channelListPopulate
  | .channelSetModes => channelSetModes
  | .channelSetTopic => channelSetTopic
  | .channelBanlistAdd => channelBanlistAdd
  | .trollTrigUpdateNick => trollTrigUpdateNick
  | .trollTrigUpdateMode => trollTrigUpdateMode
  | .trollNickInUseHandler => trollNickInUseHandler
  | .trollUserHostHandler => trollUserHostHandler
  | .trollTrigChannelRedirect => trollTrigChannelRedirect
  | .other id => scripts id

end Trollbot.Irc

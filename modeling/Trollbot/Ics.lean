import Trollbot.Foundation.Runs
import Trollbot.Tssv
import Trollbot.Wildcards

namespace Trollbot.Ics
open Runs Tssv

-- A handler of the msg triggers is a built-in one or a script's, those of the other lists are all
-- but two scripts'. The commands that would bind from a script are compiled out, ics_bind is not.
inductive MsgHandler where
  | icsInternalLogin
  | icsInternalEnter
  | icsInternalAntiAntiIdle
  | icsInternalConnect
  | icsInternalTell
  | icsInternalNotify
  | icsInternalMyName
  | icsInternalBoardGetInfo
  | icsInternalEndgame
  | script (id : Nat)
deriving DecidableEq

inductive EventHandler where
  | icsInternalStyleTwelveInit
  | icsInternalAnnounceNewGame
  | script (id : Nat)
deriving DecidableEq

inductive EventType where
  | notify
  | error
  | connect
  | game
  | move
  | tell
  | endgame
deriving DecidableEq

structure IcsTrigger (η : Type) where
  mask : Option Str
  handler : Option η
  command : Option Str
  usecount : Nat
deriving DecidableEq

structure IcsTriggerTable where
  msg : List (IcsTrigger MsgHandler)
  events : EventType → List (IcsTrigger EventHandler)

-- `info` holds the words behind the "<12>", which the board, the numbers and the names are read from.
structure IcsGame where
  info : List Str
  whiteName : Str
  blackName : Str
  styleTwelve : Str
  winnerName : Option Str
  loserName : Option Str
  endResult : Option Str
  endMessage : Option Str

structure IcsServer where
  username : Option Str
  myName : Option Str
  connected : Nat
  hosts : List (Option Str)
  triggerTable : IcsTriggerTable
  game : List IcsGame

inductive Link where
  | unlinked
  | uninitialized
  | connecting
  | connected
  | freed
deriving DecidableEq

-- The server, its tsocket and the static interval of ics_internal_anti_anti_idle.
structure Session where
  ics : IcsServer
  tsock : Link
  interval : Nat

-- Without tokens the array is a null pointer.
structure IcsData where
  txtPacket : Str
  tokens : Option (List Str)

inductive Output where
  | ranMsg (place : Nat)
  | ran (type : EventType) (place : Nat)
  | sent (line : Str)
deriving DecidableEq

-- None is a crash.
abbrev Result := Option (Session × List Output)

def loginTrigger : Str := "*(If your return key does not work, use cntrl-J)*".toList
def enterTrigger : Str := "*Press return*".toList
def connectTrigger : Str := "fics*".toList
def myNameTrigger : Str := "\\*\\*\\*\\* Starting FICS session as*".toList
def styleTwelveTrigger : Str := "<12>*".toList
def antiAntiIdleTrigger : Str := "*unrated blitz*".toList
def antiAntiIdleInterval : Nat := 20
def endgameTrigger : Str := "\x7bGame % (% vs. %) *\x7d*".toList
def tellTrigger : Str := "* tells you: *".toList
def notificationTrigger : Str := "Notification:*".toList

-- The outer none is an access outside, the inner one the null pointer at the end.
def token (data : IcsData) (i : Nat) : Option (Option Str) := do
  let words ← data.tokens
  (words.map some ++ [none])[i]?

def icsPrintf (fmt : Option Str) : Option Output := do
  let fmt ← fmt
  let text ← formatted fmt
  some (.sent (text.take 2047 ++ ['\n']))

def Session.setTable (st : Session) (table : IcsTriggerTable) : Session := { st with ics := { st.ics with triggerTable := table } }

def msgBuiltin (mask : Str) (handler : MsgHandler) : IcsTrigger MsgHandler := ⟨some mask,some handler,none,0⟩
def eventBuiltin (mask : Option Str) (handler : EventHandler) : IcsTrigger EventHandler := ⟨mask,some handler,none,0⟩

def msgBuiltins : List (IcsTrigger MsgHandler) :=
  [msgBuiltin loginTrigger .icsInternalLogin,msgBuiltin enterTrigger .icsInternalEnter,
    msgBuiltin antiAntiIdleTrigger .icsInternalAntiAntiIdle,msgBuiltin connectTrigger .icsInternalConnect,
    msgBuiltin tellTrigger .icsInternalTell,msgBuiltin notificationTrigger .icsInternalNotify,
    msgBuiltin myNameTrigger .icsInternalMyName,msgBuiltin styleTwelveTrigger .icsInternalBoardGetInfo,
    msgBuiltin endgameTrigger .icsInternalEndgame]

def eventBuiltins : EventType → List (IcsTrigger EventHandler)
  | .connect => [eventBuiltin (some connectTrigger) .icsInternalStyleTwelveInit]
  | .game => [eventBuiltin none .icsInternalAnnounceNewGame]
  | _ => []

def newIcsTriggerTable : IcsTriggerTable := ⟨[],fun _ => []⟩

-- ics_trigger_add appends.
def initIcsTriggers (table : IcsTriggerTable) : IcsTriggerTable :=
  ⟨table.msg ++ msgBuiltins,fun type => table.events type ++ eventBuiltins type⟩

-- A null type is not one.
inductive BindType where
  | msg
  | event (type : EventType)
deriving DecidableEq

def bindType (type : Str) : Option BindType :=
  [("msg".toList,BindType.msg),("notify".toList,.event .notify),("error".toList,.event .error),("connect".toList,.event .connect),
    ("game".toList,.event .game),("move".toList,.event .move),("endgame".toList,.event .endgame)].find?
      (fun known => tstrcasecmp known.1 type = 0) |>.map (·.2)

def icsBind (table : IcsTriggerTable) (type mask cmd : Str) (handler : Nat) : IcsTriggerTable :=
  match bindType type with
  | none => table
  | some .msg => { table with msg := table.msg ++ [⟨some mask,some (.script handler),some cmd,0⟩] }
  | some (.event kind) => { table with
      events := fun type =>
        if type = kind then table.events type ++ [⟨some mask,some (.script handler),some cmd,0⟩] else table.events type }

section
variable (scripts : Nat → Session → IcsData → Option (List Str))

def runScript (id : Nat) (st : Session) (data : IcsData) : Result := do
  let lines ← scripts id st data
  some (st,lines.map (fun line => .sent (line.take 2047 ++ ['\n'])))

def styleTwelveLines : List Str :=
  ["style 12".toList,"set shout 0".toList,"set cshout 0".toList,"set open 1".toList,"set highlight 0".toList,
    "set bell 0".toList,"set interface Trollbot, by poutine/DALnet".toList]

def eventEffect : EventHandler → Session → IcsData → Result
  | .icsInternalStyleTwelveInit,st,_ => some (st,styleTwelveLines.map (fun line => .sent (line ++ ['\n'])))
  | .icsInternalAnnounceNewGame,st,_ => some (st,[])
  | .script id,st,data => runScript scripts id st data

def countUse (st : Session) (type : EventType) (place : Nat) : Session :=
  let table := st.ics.triggerTable
  st.setTable { table with
    events := fun other =>
      if other = type then (table.events other).modify place (fun trig => { trig with usecount := trig.usecount + 1 })
      else table.events other }

-- The loops over one list, with their tests; not all of them count the uses.
def eachEvent (data : IcsData) (type : EventType) (hit : IcsTrigger EventHandler → Option Bool) (counts : Bool) :
    Nat → List (IcsTrigger EventHandler) → Session → Result
  | _,[],st => some (st,[])
  | place,trig :: rest,st => do
    let found ← hit trig
    match found,trig.handler with
    | true,some handler => do
      let (st,out) ← eventEffect scripts handler st data
      let (st,more) ← eachEvent data type hit counts (place + 1) rest (if counts then countUse st type place else st)
      some (st,.ran type place :: out ++ more)
    | _,_ => eachEvent data type hit counts (place + 1) rest st

def allEvents (data : IcsData) (type : EventType) (hit : IcsTrigger EventHandler → Option Bool) (counts : Bool) (st : Session) : Result :=
  eachEvent scripts data type hit counts 0 (st.ics.triggerTable.events type) st

def icsInternalConnect (st : Session) (data : IcsData) : Result :=
  if st.ics.connected ≠ 0 then some (st,[]) else do
  let (st,out) ← allEvents scripts data .connect (fun _ => some true) false st
  some ({ st with ics := { st.ics with connected := 1 } },out)

-- The triggers whose mask does not match.
def icsInternalTell (st : Session) (data : IcsData) : Result :=
  allEvents scripts data .tell (fun trig => do
    let result ← matchwilds (some data.txtPacket) trig.mask
    some (decide (result ≠ 0))) true st

def icsInternalNotify (st : Session) (data : IcsData) : Result :=
  allEvents scripts data .notify (fun trig => do
    let who ← token data 1
    let result ← matchwilds who trig.mask
    some (decide (result = 0))) false st

def icsInternalMyName (st : Session) (data : IcsData) : Result := do
  let name ← token data 5
  let name ← name
  some ({ st with ics := { st.ics with myName := some (name.takeWhile (fun c => c ≠ '(')) } },[])

def icsInternalAntiAntiIdle (st : Session) : Result :=
  if st.interval - 1 = 0 then some ({ st with interval := antiAntiIdleInterval },[.sent ("games".toList ++ ['\n'])])
  else some ({ st with interval := st.interval - 1 },[])

-- The file calls tmalloc without a declaration, so its result goes through an int. Here an int holds a pointer; in
-- a build where it does not, the first write to the record faults.
def newIcsGame (data : IcsData) : Option IcsGame := do
  let info ← (List.range 30).mapM (fun i => (token data (i + 1)).bind id)
  let white ← info[16]?
  let black ← info[17]?
  some ⟨info,white,black,data.txtPacket,none,none,none,none⟩

-- The game triggers are called for the first position.
def icsInternalBoardGetInfo (st : Session) (data : IcsData) : Result := do
  let game ← newIcsGame data
  let next := { st with ics := { st.ics with game := st.ics.game ++ [game] } }
  if st.ics.game = [] then allEvents scripts data .game (fun _ => some true) true next else some (next,[])

def wordBack (data : IcsData) (back : Nat) : Option Str := do
  let words ← data.tokens
  if words.length < back then none else words[words.length - back]?

-- The winner and the loser, and what the words at the end tell of the result.
def endGame (data : IcsData) (game : IcsGame) : Option IcsGame := do
  let last ← wordBack data 1
  let game ← (
    if last = "*".toList then some { game with winnerName := some game.whiteName, loserName := some game.blackName }
    else if last = "1/2-1/2".toList then do
      let before ← wordBack data 2
      let result := if "stalemate".toList.isPrefixOf before then "stalemate".toList else "draw".toList
      some { game with endResult := some result, winnerName := some game.whiteName, loserName := some game.blackName }
    else if last = "1-0".toList then do
      let before ← wordBack data 2
      let result := if "checkmated".toList.isPrefixOf before then some "checkmate".toList else game.endResult
      some { game with endResult := result, winnerName := some game.whiteName, loserName := some game.blackName }
    else if last = "0-1".toList then do
      let before ← wordBack data 2
      let result := if "checkmated".toList.isPrefixOf before then some "checkmate".toList else game.endResult
      some { game with endResult := result, winnerName := some game.blackName, loserName := some game.whiteName }
    else some game)
  some { game with endResult := game.endResult.or (some "WIN".toList), endMessage := some data.txtPacket }

def icsInternalEndgame (st : Session) (data : IcsData) : Result := do
  let first ← st.ics.game.head?
  let game ← endGame data first
  let st := { st with ics := { st.ics with game := game :: st.ics.game.tail } }
  let (st,out) ← allEvents scripts data .endgame (fun _ => some true) true st
  some ({ st with ics := { st.ics with game := [] } },out)

def msgEffect : MsgHandler → Session → IcsData → Result
  | .icsInternalLogin,st,_ => (icsPrintf st.ics.username).map (fun line => (st,[line]))
  | .icsInternalEnter,st,_ => some (st,[.sent "\r\n\n".toList])
  | .icsInternalAntiAntiIdle,st,_ => icsInternalAntiAntiIdle st
  | .icsInternalConnect,st,data => icsInternalConnect scripts st data
  | .icsInternalTell,st,data => icsInternalTell scripts st data
  | .icsInternalNotify,st,data => icsInternalNotify scripts st data
  | .icsInternalMyName,st,data => icsInternalMyName st data
  | .icsInternalBoardGetInfo,st,data => icsInternalBoardGetInfo scripts st data
  | .icsInternalEndgame,st,data => icsInternalEndgame scripts st data
  | .script id,st,data => runScript scripts id st data

-- The test for a notification after each trigger decides nothing.
def eachMsg (data : IcsData) : Nat → List (IcsTrigger MsgHandler) → Session → Result
  | _,[],st => some (st,[])
  | place,trig :: rest,st => do
    let result ← matchwilds (some data.txtPacket) trig.mask
    match decide (result = 0),trig.handler with
    | true,some handler => do
      let (st,out) ← msgEffect scripts handler st data
      let (st,more) ← eachMsg data (place + 1) rest st
      some (st,.ranMsg place :: out ++ more)
    | _,_ => eachMsg data (place + 1) rest st

def icsTriggerMatch (st : Session) (data : IcsData) : Result := eachMsg scripts data 0 st.ics.triggerTable.msg st

def parseIcsLine (st : Session) (buffer : Str) : Result := icsTriggerMatch scripts st ⟨buffer,tssvSplit buffer⟩

end

-- What tsocket_connect got for a server.
inductive Attempt where
  | failed
  | instant
  | inProgress
deriving DecidableEq

def tryServers (results : Nat → Attempt) : Nat → List (Option Str) → Attempt
  | _,[] => .failed
  | place,host :: rest =>
    if host.isSome ∧ results place ≠ .failed then results place else tryServers results (place + 1) rest

-- The connect callback.
def icsBallStartRolling (st : Session) : Session := st.setTable (initIcsTriggers st.ics.triggerTable)

-- Without a server the argument is freed: a null pointer at the first call, else the socket that
-- stays in the list of irc_loop.
def icsServerConnect (st : Session) (results : Nat → Attempt) : Option Session :=
  match tryServers results 0 st.ics.hosts with
  | .instant => some { icsBallStartRolling st with tsock := .connected }
  | .inProgress => some { st with tsock := .connecting }
  | .failed => if st.tsock = .unlinked then none else some { st with tsock := .freed }

-- irc_loop's call before its first pass, a socket in a connect() that becomes writable, a line of
-- ics_in, an end of the stream, and a script's trigger.
inductive Event where
  | start (results : Nat → Attempt)
  | writable (valopt : Option Nat)
  | line (buffer : Str)
  | closed (results : Nat → Attempt)
  | bind (type mask cmd : Str) (handler : Nat)

def step (scripts : Nat → Session → IcsData → Option (List Str)) (st : Session) : Event → Result
  | .start results => if st.tsock = .unlinked then (icsServerConnect st results).map (·,[]) else none
  | .writable valopt =>
    if st.tsock = .connecting then
      if valopt = some 0 then some ({ icsBallStartRolling st with tsock := .connected },[])
      else some ({ st with tsock := .uninitialized },[])
    else none
  | .line buffer => if st.tsock = .connected then parseIcsLine scripts st buffer else none
  -- ics_in takes the descriptor away, which leaves tsocket_close nothing to do
  | .closed results => if st.tsock = .connected then (icsServerConnect st results).map (·,[]) else none
  | .bind type mask cmd handler => some (st.setTable (icsBind st.ics.triggerTable type mask cmd handler),[])

def prompt (buffer : Str) : Bool := matchwilds (some buffer) (some connectTrigger) = some 0

def prompts : Event → Bool
  | .line buffer => prompt buffer
  | _ => false

-- The events that make a connection.
def connects (st : Session) : Event → Bool
  | .start results => decide (st.tsock = .unlinked) && decide (tryServers results 0 st.ics.hosts = .instant)
  | .writable valopt => decide (st.tsock = .connecting) && decide (valopt = some 0)
  | .closed results => decide (st.tsock = .connected) && decide (tryServers results 0 st.ics.hosts = .instant)
  | _ => false

-- A session with what its run has shown: the connections made, whether the last of them has seen a
-- prompt, and what the last event did.
structure Watch where
  session : Session
  connections : Nat
  prompted : Bool
  shown : List Output

def watch (scripts : Nat → Session → IcsData → Option (List Str)) (w : Watch) (event : Event) : Option Watch := do
  let (session,shown) ← step scripts w.session event
  some (if connects w.session event then ⟨session,w.connections + 1,false,shown⟩
    else ⟨session,w.connections,w.prompted || prompts event,shown⟩)

def Watch.start (username : Option Str) (hosts : List (Option Str)) : Watch :=
  ⟨⟨⟨username,none,0,hosts,newIcsTriggerTable,[]⟩,.unlinked,antiAntiIdleInterval⟩,0,false,[]⟩

def key {η : Type} (trig : IcsTrigger η) : Option Str × Option η := (trig.mask,trig.handler)

-- Each built-in trigger is in its list `n` times.
def Repeated (n : Nat) (table : IcsTriggerTable) : Prop :=
  (∀ b ∈ msgBuiltins, (table.msg.map key).count (key b) = n) ∧
    ∀ type, ∀ b ∈ eventBuiltins type, ((table.events type).map key).count (key b) = n

-- The connect triggers an event has run.
def connectRuns (out : List Output) : List Nat :=
  out.filterMap (fun output => match output with
    | .ran .connect place => some place
    | _ => none)

-- After a connection each built-in trigger is there once, and the connect triggers run, each of them
-- once, at the first prompt of a connection and at no other event.
def Idempotent (w : Watch) (event : Event) (next : Watch) : Prop :=
  (0 < next.connections → Repeated 1 next.session.ics.triggerTable) ∧
    connectRuns next.shown =
      if prompts event = true ∧ w.prompted = false then List.range (w.session.ics.triggerTable.events .connect).length else []

-- No connection was made before.
def Allowed (w : Watch) (event : Event) : Prop := connects w.session event = true → w.connections = 0

-- The table after `n` connections.
structure Held (n : Nat) (table : IcsTriggerTable) : Prop where
  repeated : Repeated n table
  masked : ∀ trig ∈ table.msg, trig.handler = some .icsInternalConnect → trig.mask = some connectTrigger
  handled : ∀ trig ∈ table.events .connect, trig.handler.isSome

structure Sound (w : Watch) : Prop where
  held : Held w.connections w.session.ics.triggerTable
  few : w.connections ≤ 1
  linked : w.session.tsock = .connected → 0 < w.connections
  marked : w.session.ics.connected = 0 ↔ w.prompted = false
  fresh : w.connections = 0 → w.prompted = false

-- What the handlers leave as it is.
structure Alike (st next : Session) : Prop where
  tsock : next.tsock = st.tsock
  msg : next.ics.triggerTable.msg = st.ics.triggerTable.msg
  keys : ∀ type, (next.ics.triggerTable.events type).map key = (st.ics.triggerTable.events type).map key

theorem Alike.refl (st : Session) : Alike st st := ⟨rfl,rfl,fun _ => rfl⟩

theorem Alike.trans (one : Alike st middle) (two : Alike middle next) : Alike st next :=
  ⟨two.tsock.trans one.tsock,two.msg.trans one.msg,fun type => (two.keys type).trans (one.keys type)⟩

theorem Alike.length (alike : Alike st next) (type : EventType) :
    (next.ics.triggerTable.events type).length = (st.ics.triggerTable.events type).length := by
  simpa using congrArg List.length (alike.keys type)

theorem Alike.handled (alike : Alike st next) (handled : ∀ trig ∈ st.ics.triggerTable.events .connect, trig.handler.isSome) :
    ∀ trig ∈ next.ics.triggerTable.events .connect, trig.handler.isSome := by
  intro trig member
  have inside : key trig ∈ (st.ics.triggerTable.events .connect).map key := by
    rw [← alike.keys .connect]
    exact List.mem_map_of_mem member
  obtain ⟨old,there,same⟩ := List.mem_map.mp inside
  have handler : old.handler = trig.handler := congrArg Prod.snd same
  rw [← handler]
  exact handled old there

theorem Alike.held (alike : Alike st next) (held : Held n st.ics.triggerTable) : Held n next.ics.triggerTable := by
  refine ⟨⟨?_,?_⟩,?_,alike.handled held.handled⟩
  · rw [alike.msg]
    exact held.repeated.1
  · intro type
    rw [alike.keys type]
    exact held.repeated.2 type
  · rw [alike.msg]
    exact held.masked

theorem key_modify {η : Type} (l : List (IcsTrigger η)) (place : Nat) :
    (l.modify place (fun trig => { trig with usecount := trig.usecount + 1 })).map key = l.map key := by
  induction l generalizing place with
  | nil => cases place <;> rfl
  | cons trig rest ih =>
      cases place with
      | zero => rfl
      | succ place => simp [ih place]

theorem countUse_alike (st : Session) (type : EventType) (place : Nat) : Alike st (countUse st type place) := by
  refine ⟨rfl,rfl,?_⟩
  intro other
  by_cases same : other = type
  · subst same
    simp [countUse,Session.setTable,key_modify]
  · simp [countUse,Session.setTable,same]

@[simp] theorem connectRuns_append (out more : List Output) : connectRuns (out ++ more) = connectRuns out ++ connectRuns more := by
  simp [connectRuns]

@[simp] theorem connectRuns_sent (lines : List Str) (line : Str → Str) :
    connectRuns (lines.map (fun text => .sent (line text))) = [] := by
  simp [connectRuns]

section
variable {scripts : Nat → Session → IcsData → Option (List Str)} {st next : Session} {data : IcsData}

theorem runScript_keeps (ran : runScript scripts number st data = some (next,out)) : next = st ∧ connectRuns out = [] := by
  obtain ⟨lines,-,same⟩ := Option.bind_eq_some_iff.mp ran
  cases same
  exact ⟨rfl,connectRuns_sent lines _⟩

theorem eventEffect_keeps (ran : eventEffect scripts handler st data = some (next,out)) : next = st ∧ connectRuns out = [] := by
  cases handler with
  | icsInternalStyleTwelveInit =>
      cases ran
      exact ⟨rfl,connectRuns_sent styleTwelveLines _⟩
  | icsInternalAnnounceNewGame =>
      cases ran
      exact ⟨rfl,rfl⟩
  | script id => exact runScript_keeps ran

-- A loop over one of the event lists runs triggers of that list only.
theorem eachEvent_keeps {hit : IcsTrigger EventHandler → Option Bool} {l : List (IcsTrigger EventHandler)}
    (ran : eachEvent scripts data type hit counts place l st = some (next,out)) :
    Alike st next ∧ next.ics.connected = st.ics.connected ∧ (type ≠ .connect → connectRuns out = []) := by
  induction l generalizing place st out with
  | nil =>
      cases ran
      exact ⟨.refl _,rfl,fun _ => rfl⟩
  | cons trig rest ih =>
      simp only [eachEvent] at ran
      obtain ⟨found,-,ran⟩ := Option.bind_eq_some_iff.mp ran
      cases found with
      | false => exact ih ran
      | true =>
          cases here : trig.handler with
          | none =>
              rw [here] at ran
              exact ih ran
          | some handler =>
              rw [here] at ran
              obtain ⟨⟨middle,shown⟩,acted,ran⟩ := Option.bind_eq_some_iff.mp ran
              obtain ⟨⟨last,more⟩,later,same⟩ := Option.bind_eq_some_iff.mp ran
              cases same
              obtain ⟨rfl,quiet⟩ := eventEffect_keeps acted
              obtain ⟨alike,connected,runs⟩ := ih later
              have used : Alike middle (if counts then countUse middle type place else middle) ∧
                  (if counts then countUse middle type place else middle).ics.connected = middle.ics.connected := by
                split
                · exact ⟨countUse_alike middle type place,rfl⟩
                · exact ⟨.refl middle,rfl⟩
              refine ⟨used.1.trans alike,connected.trans used.2,?_⟩
              intro other
              have own : connectRuns [.ran type place] = [] := by
                cases type <;> first | rfl | exact absurd rfl other
              have parts : .ran type place :: shown ++ more = [.ran type place] ++ (shown ++ more) := rfl
              rw [parts,connectRuns_append,connectRuns_append,own,quiet,runs other]
              rfl

theorem eachEvent_connect {l : List (IcsTrigger EventHandler)} (handled : ∀ trig ∈ l, trig.handler.isSome)
    (ran : eachEvent scripts data .connect (fun _ => some true) false place l st = some (next,out)) :
    connectRuns out = List.range' place l.length := by
  induction l generalizing place st out with
  | nil =>
      cases ran
      rfl
  | cons trig rest ih =>
      obtain ⟨handler,here⟩ := Option.isSome_iff_exists.mp (handled trig (by simp))
      simp only [eachEvent,here,Option.bind_eq_bind,Option.bind_some] at ran
      obtain ⟨⟨middle,shown⟩,acted,ran⟩ := Option.bind_eq_some_iff.mp ran
      obtain ⟨⟨last,more⟩,later,same⟩ := Option.bind_eq_some_iff.mp ran
      cases same
      have quiet := (eventEffect_keeps acted).2
      have runs := ih (fun trig member => handled trig (List.mem_cons_of_mem _ member)) later
      have parts : Output.ran .connect place :: shown ++ more = [.ran .connect place] ++ (shown ++ more) := rfl
      rw [parts,connectRuns_append,connectRuns_append,quiet,runs]
      rfl

theorem allEvents_keeps {hit : IcsTrigger EventHandler → Option Bool} (other : type ≠ .connect)
    (ran : allEvents scripts data type hit counts st = some (next,out)) :
    Alike st next ∧ next.ics.connected = st.ics.connected ∧ connectRuns out = [] := by
  obtain ⟨alike,connected,runs⟩ := eachEvent_keeps ran
  exact ⟨alike,connected,runs other⟩

-- Only the connect handler runs connect triggers and sets the flag.
theorem msgEffect_keeps (other : handler ≠ .icsInternalConnect) (ran : msgEffect scripts handler st data = some (next,out)) :
    Alike st next ∧ next.ics.connected = st.ics.connected ∧ connectRuns out = [] := by
  cases handler with
  | icsInternalConnect => exact absurd rfl other
  | icsInternalLogin =>
      obtain ⟨line,sent,same⟩ := Option.map_eq_some_iff.mp ran
      cases same
      obtain ⟨_,-,sent⟩ := Option.bind_eq_some_iff.mp sent
      obtain ⟨_,-,same⟩ := Option.bind_eq_some_iff.mp sent
      cases same
      exact ⟨.refl st,rfl,rfl⟩
  | icsInternalEnter =>
      cases ran
      exact ⟨.refl st,rfl,rfl⟩
  | icsInternalAntiAntiIdle =>
      simp only [msgEffect,icsInternalAntiAntiIdle] at ran
      split at ran
      all_goals
        cases ran
        exact ⟨⟨rfl,rfl,fun _ => rfl⟩,rfl,rfl⟩
  | icsInternalTell => exact allEvents_keeps (by decide) ran
  | icsInternalNotify => exact allEvents_keeps (by decide) ran
  | icsInternalMyName =>
      obtain ⟨_,-,ran⟩ := Option.bind_eq_some_iff.mp ran
      obtain ⟨_,-,same⟩ := Option.bind_eq_some_iff.mp ran
      cases same
      exact ⟨⟨rfl,rfl,fun _ => rfl⟩,rfl,rfl⟩
  | icsInternalBoardGetInfo =>
      obtain ⟨game,-,ran⟩ := Option.bind_eq_some_iff.mp ran
      dsimp only at ran
      split at ran
      · obtain ⟨alike,connected,runs⟩ := allEvents_keeps (by decide) ran
        exact ⟨⟨alike.tsock,alike.msg,alike.keys⟩,connected,runs⟩
      · cases ran
        exact ⟨⟨rfl,rfl,fun _ => rfl⟩,rfl,rfl⟩
  | icsInternalEndgame =>
      obtain ⟨first,-,ran⟩ := Option.bind_eq_some_iff.mp ran
      obtain ⟨game,-,ran⟩ := Option.bind_eq_some_iff.mp ran
      obtain ⟨⟨last,shown⟩,called,same⟩ := Option.bind_eq_some_iff.mp ran
      cases same
      obtain ⟨alike,connected,runs⟩ := allEvents_keeps (by decide) called
      exact ⟨⟨alike.tsock,alike.msg,alike.keys⟩,connected,runs⟩
  | script number =>
      obtain ⟨same,runs⟩ := runScript_keeps ran
      subst same
      exact ⟨.refl _,rfl,runs⟩

theorem connect_runs (handled : ∀ trig ∈ st.ics.triggerTable.events .connect, trig.handler.isSome)
    (ran : icsInternalConnect scripts st data = some (next,out)) :
    Alike st next ∧ next.ics.connected ≠ 0 ∧
      connectRuns out = if st.ics.connected = 0 then List.range (st.ics.triggerTable.events .connect).length else [] := by
  unfold icsInternalConnect at ran
  by_cases done : st.ics.connected = 0
  · rw [if_neg (by simp [done])] at ran
    obtain ⟨⟨last,shown⟩,called,same⟩ := Option.bind_eq_some_iff.mp ran
    cases same
    obtain ⟨alike,-,-⟩ := eachEvent_keeps called
    refine ⟨⟨alike.tsock,alike.msg,alike.keys⟩,by simp,?_⟩
    rw [if_pos done,eachEvent_connect handled called,List.range_eq_range']
  · rw [if_pos done] at ran
    cases ran
    exact ⟨.refl st,done,by simp [connectRuns,done]⟩

def Connects (l : List (IcsTrigger MsgHandler)) : Prop := ∃ trig ∈ l, trig.handler = some .icsInternalConnect

-- The connect triggers of a line: all of them, once, where the line is a prompt, a trigger waits for
-- it and the flag is not set; then it is.
theorem eachMsg_runs {l : List (IcsTrigger MsgHandler)}
    (masked : ∀ trig ∈ l, trig.handler = some .icsInternalConnect → trig.mask = some connectTrigger)
    (handled : ∀ trig ∈ st.ics.triggerTable.events .connect, trig.handler.isSome)
    (ran : eachMsg scripts data place l st = some (next,out)) :
    Alike st next ∧
      (prompt data.txtPacket = true ∧ Connects l → next.ics.connected ≠ 0 ∧ connectRuns out =
        if st.ics.connected = 0 then List.range (st.ics.triggerTable.events .connect).length else []) ∧
      (¬(prompt data.txtPacket = true ∧ Connects l) → next.ics.connected = st.ics.connected ∧ connectRuns out = []) := by
  induction l generalizing place st out with
  | nil =>
      cases ran
      exact ⟨.refl _,fun ⟨_,_,member,_⟩ => (by cases member),fun _ => ⟨rfl,rfl⟩⟩
  | cons trig rest ih =>
      have masked' : ∀ trig ∈ rest, trig.handler = some .icsInternalConnect → trig.mask = some connectTrigger :=
        fun trig member => masked trig (List.mem_cons_of_mem _ member)
      simp only [eachMsg] at ran
      obtain ⟨result,matched,ran⟩ := Option.bind_eq_some_iff.mp ran
      have waits : Connects (trig :: rest) ↔ trig.handler = some .icsInternalConnect ∨ Connects rest := by
        simp [Connects]
      -- a trigger that is passed is not the one that waits for a prompt
      have passed : ¬(result = 0 ∧ trig.handler.isSome) →
          (prompt data.txtPacket = true ∧ Connects (trig :: rest) ↔ prompt data.txtPacket = true ∧ Connects rest) := by
        intro quiet
        rw [waits]
        constructor
        · rintro ⟨prompted,here | later⟩
          · rw [masked trig (by simp) here] at matched
            refine absurd ⟨?_,by simp [here]⟩ quiet
            rw [prompt,decide_eq_true_eq,matched] at prompted
            exact Option.some.inj prompted
          · exact ⟨prompted,later⟩
        · exact fun ⟨prompted,later⟩ => ⟨prompted,.inr later⟩
      by_cases acts : result = 0 ∧ trig.handler.isSome
      · obtain ⟨rfl,some'⟩ := acts
        obtain ⟨handler,here⟩ := Option.isSome_iff_exists.mp some'
        rw [here] at ran
        obtain ⟨⟨middle,shown⟩,acted,ran⟩ := Option.bind_eq_some_iff.mp ran
        obtain ⟨⟨last,more⟩,later,same⟩ := Option.bind_eq_some_iff.mp ran
        cases same
        have parts : connectRuns (.ranMsg place :: shown ++ more) = connectRuns shown ++ connectRuns more := by
          rw [← connectRuns_append]
          rfl
        rw [parts]
        by_cases connecting : handler = .icsInternalConnect
        · subst connecting
          have prompted : prompt data.txtPacket = true := by
            rw [masked trig (by simp) here] at matched
            simp [prompt,matched]
          obtain ⟨alike,set,runs⟩ := connect_runs handled acted
          obtain ⟨onward,again,quiet⟩ := ih masked' (alike.handled handled) later
          refine ⟨alike.trans onward,fun _ => ?_,fun none' => absurd ⟨prompted,waits.mpr (.inl here)⟩ none'⟩
          by_cases more' : Connects rest
          · obtain ⟨still,nothing⟩ := again ⟨prompted,more'⟩
            exact ⟨still,by rw [runs,nothing,if_neg set,List.append_nil]⟩
          · obtain ⟨still,nothing⟩ := quiet (fun both => more' both.2)
            exact ⟨by rw [still]; exact set,by rw [runs,nothing,List.append_nil]⟩
        · obtain ⟨alike,connected,runs⟩ := msgEffect_keeps connecting acted
          obtain ⟨onward,again,quiet⟩ := ih masked' (alike.handled handled) later
          have same : Connects (trig :: rest) ↔ Connects rest := by
            rw [waits,here,Option.some.injEq]
            exact or_iff_right connecting
          rw [runs,List.nil_append,same]
          refine ⟨alike.trans onward,fun both => ?_,fun none' => ?_⟩
          · obtain ⟨set,all⟩ := again both
            exact ⟨set,by rw [all,connected,alike.length .connect]⟩
          · obtain ⟨still,nothing⟩ := quiet none'
            exact ⟨still.trans connected,nothing⟩
      · have goes : eachMsg scripts data (place + 1) rest st = some (next,out) := by
          cases zero : decide (result = 0) with
          | false => rw [zero] at ran; exact ran
          | true =>
              cases here : trig.handler with
              | none => rw [zero,here] at ran; exact ran
              | some handler => exact absurd ⟨of_decide_eq_true zero,by simp [here]⟩ acts
        rw [passed acts]
        exact ih masked' handled goes

theorem init_held {table : IcsTriggerTable} (held : Held n table) : Held (n + 1) (initIcsTriggers table) := by
  have own : ∀ b ∈ msgBuiltins, (msgBuiltins.map key).count (key b) = 1 := by decide
  have owns : ∀ type, ∀ b ∈ eventBuiltins type, ((eventBuiltins type).map key).count (key b) = 1 := by
    intro type
    cases type <;> decide
  refine ⟨⟨?_,?_⟩,?_,?_⟩
  · intro b member
    rw [initIcsTriggers,List.map_append,List.count_append,held.repeated.1 b member,own b member]
  · intro type b member
    rw [initIcsTriggers,List.map_append,List.count_append,held.repeated.2 type b member,owns type b member]
  · intro trig member
    rcases List.mem_append.mp member with old | new
    · exact held.masked trig old
    · have all : ∀ trig ∈ msgBuiltins, trig.handler = some .icsInternalConnect → trig.mask = some connectTrigger := by decide
      exact all trig new
  · intro trig member
    rcases List.mem_append.mp member with old | new
    · exact held.handled trig old
    · obtain rfl := List.mem_singleton.mp new
      rfl

theorem count_added {η : Type} [DecidableEq η] {b new : IcsTrigger η} (l : List (IcsTrigger η)) (apart : key new ≠ key b) :
    ((l ++ [new]).map key).count (key b) = (l.map key).count (key b) := by
  have none' : ([key new].count (key b)) = 0 := List.count_eq_zero.mpr (by simpa using Ne.symm apart)
  rw [List.map_append,List.count_append,List.map_singleton,none',Nat.add_zero]

theorem bind_held {table : IcsTriggerTable} (held : Held n table) : Held n (icsBind table type mask cmd handler) := by
  have scripts : ∀ b ∈ msgBuiltins, key b ≠ (some mask,some (.script handler)) := by
    intro b member
    have : b.handler ≠ some (.script handler) := by
      revert b
      simp [msgBuiltins,msgBuiltin]
    exact fun same => this (congrArg Prod.snd same)
  have script : ∀ kind, ∀ b ∈ eventBuiltins kind, key b ≠ (some mask,some (.script handler)) := by
    intro kind b member same
    have own : b.handler = some (.script handler) := congrArg Prod.snd same
    cases kind <;> simp [eventBuiltins,eventBuiltin] at member
    all_goals simp [member] at own
  unfold icsBind
  split
  · exact held
  · refine ⟨⟨?_,held.repeated.2⟩,?_,held.handled⟩
    · intro b member
      rw [count_added table.msg (Ne.symm (scripts b member))]
      exact held.repeated.1 b member
    · intro trig member
      rcases List.mem_append.mp member with old | new
      · exact held.masked trig old
      · obtain rfl := List.mem_singleton.mp new
        simp
  · rename_i kind _
    refine ⟨⟨held.repeated.1,?_⟩,held.masked,?_⟩
    · intro other b member
      dsimp only
      split
      · rw [count_added (table.events other) (Ne.symm (script other b member))]
        exact held.repeated.2 other b member
      · exact held.repeated.2 other b member
    · intro trig member
      dsimp only at member
      split at member
      · rcases List.mem_append.mp member with old | new
        · exact held.handled trig old
        · obtain rfl := List.mem_singleton.mp new
          rfl
      · exact held.handled trig member

theorem repeated_once {table : IcsTriggerTable} (held : Held n table) : Repeated 1 table ↔ n = 1 := by
  constructor
  · intro once
    have first := held.repeated.1 _ (List.mem_cons_self (a := msgBuiltin loginTrigger .icsInternalLogin))
    rw [← first]
    exact once.1 _ List.mem_cons_self
  · rintro rfl
    exact held.repeated

theorem connected_sound {w next : Watch} (sound : Sound w) (event : Event) (made : connects w.session event = true)
    (taken : watch scripts w event = some next) :
    Held (w.connections + 1) next.session.ics.triggerTable ∧ next.connections = w.connections + 1 ∧ next.prompted = false ∧
      next.session.ics.connected = w.session.ics.connected ∧ next.shown = [] ∧ prompts event = false := by
  obtain ⟨⟨session,shown⟩,stepped,same⟩ := Option.bind_eq_some_iff.mp taken
  simp only [made,if_true,Option.some.injEq] at same
  subst same
  have rolled := init_held sound.held
  cases event with
  | start results =>
      simp only [connects,Bool.and_eq_true,decide_eq_true_eq] at made
      simp only [step,made.1,icsServerConnect,made.2,if_true,Option.map_some,Option.some.injEq,Prod.mk.injEq] at stepped
      obtain ⟨rfl,rfl⟩ := stepped
      exact ⟨rolled,rfl,rfl,rfl,rfl,rfl⟩
  | writable valopt =>
      simp only [connects,Bool.and_eq_true,decide_eq_true_eq] at made
      simp only [step,made.1,made.2,if_true,Option.some.injEq,Prod.mk.injEq] at stepped
      obtain ⟨rfl,rfl⟩ := stepped
      exact ⟨rolled,rfl,rfl,rfl,rfl,rfl⟩
  | closed results =>
      simp only [connects,Bool.and_eq_true,decide_eq_true_eq] at made
      simp only [step,made.1,icsServerConnect,made.2,if_true,Option.map_some,Option.some.injEq,Prod.mk.injEq] at stepped
      obtain ⟨rfl,rfl⟩ := stepped
      exact ⟨rolled,rfl,rfl,rfl,rfl,rfl⟩
  | line buffer => cases made
  | bind type mask cmd handler => cases made

theorem waits_prompt {table : IcsTriggerTable} (held : Held n table) (some' : 0 < n) : Connects table.msg := by
  have times := held.repeated.1 (msgBuiltin connectTrigger .icsInternalConnect) (by decide)
  have inside : key (msgBuiltin connectTrigger .icsInternalConnect) ∈ table.msg.map key := by
    rw [← List.count_pos_iff,times]
    exact some'
  obtain ⟨trig,member,same⟩ := List.mem_map.mp inside
  exact ⟨trig,member,congrArg Prod.snd same⟩

theorem line_sound {w : Watch} (sound : Sound w) (linked : w.session.tsock = .connected)
    (parsed : parseIcsLine scripts w.session buffer = some (session,shown)) :
    Sound ⟨session,w.connections,w.prompted || prompt buffer,shown⟩ ∧ connectRuns shown =
      if prompt buffer = true ∧ w.prompted = false then List.range (w.session.ics.triggerTable.events .connect).length else [] := by
  have some' := sound.linked linked
  obtain ⟨alike,prompted,other⟩ := eachMsg_runs sound.held.masked sound.held.handled parsed
  have waits := waits_prompt sound.held some'
  by_cases first : prompt buffer = true
  · obtain ⟨set,runs⟩ := prompted ⟨first,waits⟩
    refine ⟨⟨alike.held sound.held,sound.few,fun _ => some',?_,fun zero => ?_⟩,?_⟩
    · simp [set,first]
    · exact absurd zero (Nat.ne_of_gt some')
    · rw [runs]
      simp only [sound.marked,first,true_and]
  · obtain ⟨still,nothing⟩ := other (fun both => first both.1)
    refine ⟨⟨alike.held sound.held,sound.few,fun _ => some',?_,fun zero => ?_⟩,?_⟩
    · rw [still,sound.marked]
      simp [first]
    · exact absurd zero (Nat.ne_of_gt some')
    · rw [nothing,if_neg (fun both => first both.1)]

-- Where no connection is made, the prompts alone decide.
theorem passed_sound {w next : Watch} (sound : Sound w) (event : Event) (none' : connects w.session event = false)
    (taken : watch scripts w event = some next) :
    Sound next ∧ next.connections = w.connections ∧ connectRuns next.shown =
      if prompts event = true ∧ w.prompted = false then List.range (w.session.ics.triggerTable.events .connect).length else [] := by
  obtain ⟨⟨session,shown⟩,stepped,same⟩ := Option.bind_eq_some_iff.mp taken
  simp only [none',Bool.false_eq_true,if_false,Option.some.injEq] at same
  subst same
  -- a step that only moves the link
  have moved : ∀ link, link ≠ .connected → prompts event = false → session = { w.session with tsock := link } → shown = [] →
      Sound ⟨session,w.connections,w.prompted || prompts event,shown⟩ ∧ connectRuns shown =
        if prompts event = true ∧ w.prompted = false then List.range (w.session.ics.triggerTable.events .connect).length else [] := by
    rintro link away quiet rfl rfl
    rw [quiet,Bool.or_false]
    refine ⟨⟨sound.held,sound.few,fun linked => absurd linked away,sound.marked,sound.fresh⟩,?_⟩
    rw [if_neg (by simp)]
    rfl
  have tried : ∀ results, prompts event = false → tryServers results 0 w.session.ics.hosts ≠ .instant → shown = [] →
      icsServerConnect w.session results = some session →
      Sound ⟨session,w.connections,w.prompted || prompts event,shown⟩ ∧ connectRuns shown =
        if prompts event = true ∧ w.prompted = false then List.range (w.session.ics.triggerTable.events .connect).length else [] := by
    intro results quiet later nothing reached
    unfold icsServerConnect at reached
    split at reached
    · rename_i instant
      exact absurd instant later
    · exact moved .connecting (by decide) quiet (Option.some.inj reached).symm nothing
    · split at reached
      · cases reached
      · exact moved .freed (by decide) quiet (Option.some.inj reached).symm nothing
  cases event with
  | start results =>
      simp only [step] at stepped
      split at stepped
      · rename_i unlinked
        obtain ⟨reached,done,same⟩ := Option.map_eq_some_iff.mp stepped
        cases same
        obtain ⟨keeps,runs⟩ := tried results rfl (by simpa [connects,unlinked] using none') rfl done
        exact ⟨keeps,rfl,runs⟩
      · cases stepped
  | writable valopt =>
      simp only [step] at stepped
      split at stepped
      · rename_i connecting
        rw [if_neg (by simpa [connects,connecting] using none')] at stepped
        cases stepped
        obtain ⟨keeps,runs⟩ := moved .uninitialized (by decide) rfl rfl rfl
        exact ⟨keeps,rfl,runs⟩
      · cases stepped
  | line buffer =>
      simp only [step] at stepped
      split at stepped
      · rename_i linked
        obtain ⟨keeps,runs⟩ := line_sound sound linked stepped
        exact ⟨keeps,rfl,runs⟩
      · cases stepped
  | closed results =>
      simp only [step] at stepped
      split at stepped
      · rename_i linked
        obtain ⟨reached,done,same⟩ := Option.map_eq_some_iff.mp stepped
        cases same
        obtain ⟨keeps,runs⟩ := tried results rfl (by simpa [connects,linked] using none') rfl done
        exact ⟨keeps,rfl,runs⟩
      · cases stepped
  | bind type mask cmd handler =>
      cases stepped
      have held : Held w.connections (icsBind w.session.ics.triggerTable type mask cmd handler) := bind_held sound.held
      refine ⟨⟨held,sound.few,sound.linked,?_,?_⟩,rfl,rfl⟩
      · rw [show prompts (.bind type mask cmd handler) = false from rfl,Bool.or_false]
        exact sound.marked
      · rw [show prompts (.bind type mask cmd handler) = false from rfl,Bool.or_false]
        exact sound.fresh

theorem step_exact {w next : Watch} (sound : Sound w) (event : Event) (taken : watch scripts w event = some next) :
    Idempotent w event next ↔ Allowed w event := by
  cases made : connects w.session event with
  | true =>
      obtain ⟨held,count,-,-,nothing,quiet⟩ := connected_sound sound event made taken
      rw [Idempotent,Allowed,repeated_once held,count,nothing,quiet,made]
      simp [connectRuns]
  | false =>
      obtain ⟨keeps,-,runs⟩ := passed_sound sound event made taken
      rw [Idempotent,Allowed,repeated_once keeps.held,made]
      have few := keeps.few
      refine ⟨fun _ => nofun,fun _ => ⟨fun some' => by omega,runs⟩⟩

theorem step_keeps {w next : Watch} (sound : Sound w) (event : Event) (taken : watch scripts w event = some next)
    (allowed : Allowed w event) : Sound next := by
  cases made : connects w.session event with
  | true =>
      obtain ⟨held,count,fresh,flag,-,-⟩ := connected_sound sound event made taken
      have first := allowed made
      refine ⟨by rw [count]; exact held,by omega,fun _ => by omega,?_,fun _ => fresh⟩
      rw [flag,fresh,sound.marked,sound.fresh first]
  | false => exact (passed_sound sound event made taken).1

theorem start_sound (username : Option Str) (hosts : List (Option Str)) : Sound (.start username hosts) := by
  exact ⟨⟨⟨fun _ _ => rfl,fun _ _ _ => rfl⟩,nofun,nofun⟩,Nat.zero_le 1,nofun,⟨fun _ => rfl,fun _ => rfl⟩,fun _ => rfl⟩

end

-- Over any run of a server, with any scripts bound at any time.
theorem reconnection_idempotent (scripts : Nat → Session → IcsData → Option (List Str)) (username : Option Str)
    (hosts : List (Option Str)) (events : List Event) :
    Along (watch scripts) Idempotent (.start username hosts) events ↔
      Along (watch scripts) (fun w event _ => Allowed w event) (.start username hosts) events := by
  have exact : ∀ w event next, Sound w → True → watch scripts w event = some next → (Idempotent w event next ↔ Allowed w event) :=
    fun w event next sound _ taken => step_exact sound event taken
  have keeps : ∀ w event next, Sound w → True → watch scripts w event = some next → Idempotent w event next → Sound next :=
    fun w event next sound fits taken shows => step_keeps sound event taken ((exact w event next sound fits taken).mp shows)
  exact along_exact Sound exact keeps (start_sound username hosts) (fun _ _ => trivial)

def fics : Option Str := some "freechess.org".toList

-- The second connection has all the built-in triggers twice.
theorem second_connection_repeats :
    ¬Along (watch (fun _ _ _ => none)) Idempotent (.start none [fics])
      [.start (fun _ => .instant),.closed (fun _ => .inProgress),.writable (some 0)] := by
  rintro along
  obtain ⟨-,along⟩ := along _ rfl
  obtain ⟨-,along⟩ := along _ rfl
  obtain ⟨⟨once,-⟩,-⟩ := along _ rfl
  have first := (once (by decide)).1 (msgBuiltin loginTrigger .icsInternalLogin) (by decide)
  revert first
  decide

end Trollbot.Ics

import Trollbot.Foundation.Runs
import Trollbot.Foundation.Sweep
import Trollbot.DccLogin

namespace Trollbot.EventLoop
open Runs Sweep
open DccLogin (DccStatus)

inductive TsocketStatus where
  | ignore
  | disconnected
  | uninitialized
  | notInFdSet
  | inFdSet
  | listener
  | connecting
deriving DecidableEq

inductive NetStatus where
  | disconnected
  | inProgress
  | idle
deriving DecidableEq

-- The functions that are stored in the callbacks of a tsocket of the bot's list.
inductive Callback where
  | ircIn
  | ircBallStartRolling
deriving DecidableEq

-- `data` is the place of the network the socket belongs to.
structure Tsocket where
  id : Nat
  sock : Int
  status : TsocketStatus
  data : Nat
  readCb : Option Callback
  writeCb : Option Callback
  connectCb : Option Callback
  disconnectCb : Option Callback

structure Server where
  host : Option Str
  port : Int

structure Dcc where
  sock : Int
  status : DccStatus

-- Its connection is the tsocket with the id `tsock`. irc_loop also goes through a descriptor
-- net->sock, a member that struct network no longer has; it is left out.
structure Network where
  status : NetStatus
  neverGiveUp : Int
  lastTry : Int
  connectDelay : Int
  vhost : Option Str
  servers : List Server
  dccListener : Int
  dccs : List Dcc
  tsock : Option Nat

structure HttpServer where
  host : Option Str
  port : Int
  sock : Int

-- The loops of a pass in their order, after the connections made before the first one. Those under
-- HAVE_XMPP are left out. Without HAVE_HTTP there are no HTTP servers.
inductive Phase where
  | start
  | networks
  | https
  | polls
  | tsockets
  | accepts
  | sessions
deriving DecidableEq

-- `made` counts the tsockets allocated so far.
structure Loop where
  networks : List Network
  https : List HttpServer
  tsockets : List Tsocket
  made : Nat
  sockcount : Nat
  phase : Phase

inductive Fault where
  | crash
  -- FD_SET or FD_ISSET on a negative descriptor
  | badFd
  -- a call through a null callback
  | nullCall
  -- a loop that never gets past an element
  | endless
deriving DecidableEq

-- What socket and connect gave tsocket_connect: no descriptor, one that was given up again, an
-- instant connection, or one in progress.
inductive Connected where
  | noSocket
  | failed (fd : Nat)
  | instant (fd : Nat)
  | inProgress (fd : Nat)

-- What the lines of a recv make the network's handlers do to descriptors.
inductive Effect where
  | listen (fd : Option Nat)
  | chat (fd : Nat)
  | registered

inductive Recv where
  | failed
  | closed
  | bytes (effects : List Effect)

structure Ready where
  readable : Bool
  recv : Recv
  writable : Bool
  valopt : Option Nat

-- A line that makes parse_dcc_line drop its session frees what irc_loop goes on to read.
inductive DccRead where
  | hangup
  | dropped
  | parsed (status : DccStatus)

structure DccReady where
  readable : Option DccRead
  writable : Option (Option Nat)

-- A network block of a configuration file that .rehash reads, with the old network it matches.
structure NetworkBlock where
  old : Option Nat
  neverGiveUp : Int
  connectDelay : Int
  vhost : Option Str
  servers : List Server

-- What the outside does in one phase: the clock, the connections by network and server, the
-- listeners by HTTP server, what select and the calls after it give by place, and a new
-- configuration if a line rehashed.
structure Turn where
  now : Int
  connects : Nat → Nat → Connected
  listens : Nat → Option Nat
  ready : Nat → Ready
  httpReady : Nat → Bool
  accepts : Nat → Option Nat
  dccs : Nat → Nat → DccReady
  rehash : Option (List NetworkBlock × List (Option Str × Int))

def sure {β : Type} (x : Option β) : Except Fault β := orFault .crash x

def fdSet (fd : Int) : Except Fault Unit := if fd < 0 then .error .badFd else .ok ()
def fdIsset (fd : Int) (ready : Bool) : Except Fault Bool := if fd < 0 then .error .badFd else .ok ready

def newNetwork (block : NetworkBlock) : Network :=
  { status := .disconnected, neverGiveUp := block.neverGiveUp, lastTry := 0, connectDelay := block.connectDelay
    vhost := block.vhost, servers := block.servers, dccListener := -1, dccs := [], tsock := none }

def newHttpServer (server : Option Str × Int) : HttpServer := ⟨server.1,server.2,-1⟩

def Loop.start (blocks : List NetworkBlock) (servers : List (Option Str × Int)) : Loop :=
  ⟨blocks.map newNetwork,servers.map newHttpServer,[],0,0,.start⟩

-- tsocket.c. The connect callback only writes to the socket.
def tsocketConnect (tsock : Tsocket) : Connected → Tsocket × Bool
  | .noSocket => ({ tsock with sock := -1 },false)
  | .failed fd => ({ tsock with sock := fd },false)
  | .instant fd => ({ tsock with sock := fd, status := .notInFdSet },true)
  | .inProgress fd => ({ tsock with sock := fd, status := .connecting },true)

def tsocketClose (tsock : Tsocket) : Tsocket :=
  if tsock.sock ≠ -1 then { tsock with sock := -1, status := .uninitialized } else tsock

def tsocketCheckNonblockingConnect (tsock : Tsocket) (valopt : Option Nat) : Tsocket :=
  if tsock.status = .connecting then
    match valopt with
    | none => { tsock with sock := -1, status := .uninitialized }
    | some error => if error ≠ 0 then { tsock with sock := -1, status := .uninitialized } else { tsock with status := .notInFdSet }
  else tsock

def tsocketNew (id : Nat) : Tsocket := ⟨id,-1,.uninitialized,0,none,none,none,none⟩

def tryServers (connects : Nat → Connected) : Nat → List Server → Tsocket → Tsocket × Bool
  | _,[],tsock => (tsock,false)
  | place,srv :: rest,tsock =>
    if srv.host.isSome then
      match tsocketConnect tsock (connects place) with
      | (tsock,true) => (tsock,true)
      | (tsock,false) => tryServers connects (place + 1) rest tsock
    else tryServers connects (place + 1) rest tsock

-- The socket is freed again when no server could be connected to. slist_insert_next puts it at the
-- head of the list.
def Loop.networkConnect (st : Loop) (place : Nat) (net : Network) (connects : Nat → Connected) : Loop :=
  let tsock := { tsocketNew st.made with
    data := place, readCb := some .ircIn, writeCb := none, connectCb := some .ircBallStartRolling }
  let st := { st with made := st.made + 1, networks := st.networks.set place { net with tsock := some st.made } }
  match tryServers connects 0 net.servers tsock with
  | (tsock,true) => { st with tsockets := tsock :: st.tsockets }
  | (_,false) => st

def httpServerListen (turn : Turn) (st : Loop) (place : Nat) : Except Fault Loop := do
  let http ← sure st.https[place]?
  if http.host = none then .ok st else
  let sock : Int := match turn.listens place with
    | none => -1
    | some fd => fd
  .ok { st with https := st.https.set place { http with sock := sock } }

def firstConnect (turn : Turn) (st : Loop) (place : Nat) : Except Fault Loop := do
  let net ← sure st.networks[place]?
  .ok (st.networkConnect place { net with lastTry := turn.now, status := .inProgress } (turn.connects place))

def pollDcc (dcc : Dcc) : Except Fault (Dcc × Nat) := do
  let (dcc,count) ← (match dcc.status with
    | .notReady => if dcc.sock ≠ -1 then do
        let _ ← fdSet dcc.sock
        .ok ({ dcc with status := .connected },1)
      else .ok (dcc,0)
    | .connected | .hasUsername | .authenticated => if dcc.sock ≠ -1 then do
        let _ ← fdSet dcc.sock
        .ok (dcc,1)
      else .ok (dcc,0)
    | _ => .ok (dcc,0))
  if dcc.status = .nonblockConnect then do
    let _ ← fdSet dcc.sock
    .ok ({ dcc with status := .waitingConnect },count + 1)
  else .ok (dcc,count)

def pollDccs : List Dcc → Except Fault (List Dcc × Nat)
  | [] => .ok ([],0)
  | dcc :: rest => do
    let (dcc,count) ← pollDcc dcc
    let (rest,more) ← pollDccs rest
    .ok (dcc :: rest,count + more)

def retries (turn : Turn) (net : Network) : Bool :=
  decide (net.status = .disconnected) && decide (net.neverGiveUp = 1) && decide (net.lastTry + net.connectDelay ≤ turn.now)

def retry (turn : Turn) (st : Loop) (place : Nat) (net : Network) : Loop :=
  if retries turn net then st.networkConnect place { net with status := .inProgress, lastTry := turn.now } (turn.connects place)
  else st

def pollListener (net : Network) : Except Fault Nat :=
  if net.dccListener ≠ -1 then do
    let _ ← fdSet net.dccListener
    .ok 1
  else .ok 0

def pollNetwork (turn : Turn) (st : Loop) (place : Nat) : Except Fault Loop := do
  let net ← sure st.networks[place]?
  let st := retry turn st place net
  let net ← sure st.networks[place]?
  let listening ← pollListener net
  let (dccs,count) ← pollDccs net.dccs
  .ok { st with networks := st.networks.set place { net with dccs := dccs }, sockcount := st.sockcount + listening + count }

def httpInitListener (http : HttpServer) (listens : Option Nat) : HttpServer :=
  if http.host = none then { http with sock := -2 } else
  match listens with
  | none => { http with sock := -2 }
  | some fd => { http with sock := fd }

def pollHttp (turn : Turn) (st : Loop) (place : Nat) : Except Fault Loop := do
  let http ← sure st.https[place]?
  if http.sock = -2 then .error .endless else
  let http := if http.sock = -1 then httpInitListener http (turn.listens place) else http
  let _ ← fdSet http.sock
  .ok { st with https := st.https.set place http, sockcount := st.sockcount + 1 }

def pollTsocket (st : Loop) (place : Nat) : Except Fault Loop := do
  let tsock ← sure st.tsockets[place]?
  match tsock.status with
  | .connecting => do
    let _ ← fdSet tsock.sock
    .ok { st with sockcount := st.sockcount + 1 }
  | .inFdSet | .notInFdSet => do
    let _ ← fdSet tsock.sock
    .ok { st with tsockets := st.tsockets.set place { tsock with status := .inFdSet }, sockcount := st.sockcount + 1 }
  | _ => .ok st

def Effect.on (net : Network) : Effect → Network
  | .listen none => { net with dccListener := -1 }
  | .listen (some fd) => { net with dccListener := fd }
  | .chat fd => { net with dccs := net.dccs ++ [⟨fd,.nonblockConnect⟩] }
  | .registered => { net with status := .idle }

-- A closed connection closes the network's socket.
def ircIn (st : Loop) (tsock : Tsocket) (recv : Recv) : Except Fault (Loop × Nat) := do
  let net ← sure st.networks[tsock.data]?
  match recv with
  | .failed => .ok (st,1)
  | .closed => do
    let id ← sure net.tsock
    let _ ← sure (st.tsockets.find? (fun other => other.id = id))
    .ok ({ st with tsockets := st.tsockets.map (fun other => if other.id = id then tsocketClose other else other) },0)
  | .bytes effects => .ok ({ st with networks := st.networks.set tsock.data (effects.foldl Effect.on net) },1)

def call : Callback → Loop → Tsocket → Recv → Except Fault (Loop × Nat)
  | .ircIn,st,tsock,recv => ircIn st tsock recv
  | .ircBallStartRolling,st,_,_ => .ok (st,1)

-- if (FD_ISSET(..)) if (cb != NULL) if (!cb(tsock)) tsock->tsocket_disconnect_cb(tsock);
def serveCallback (set : Bool) (cb : Option Callback) (recv : Recv) (st : Loop) (tsock : Tsocket) : Except Fault Loop :=
  match set,cb with
  | true,some cb => do
    let (st,result) ← call cb st tsock recv
    if result ≠ 0 then .ok st else
    match tsock.disconnectCb with
    | none => .error .nullCall
    | some disconnect => do
      let (st,_) ← call disconnect st tsock recv
      .ok st
  | _,_ => .ok st

def serveTsocket (turn : Turn) (st : Loop) (place : Nat) : Except Fault Loop := do
  let tsock ← sure st.tsockets[place]?
  let ready := turn.ready place
  match tsock.status with
  | .connecting => do
    let set ← fdIsset tsock.sock ready.writable
    if set then .ok { st with tsockets := st.tsockets.set place (tsocketCheckNonblockingConnect tsock ready.valopt) } else .ok st
  | .inFdSet => do
    let set ← fdIsset tsock.sock ready.readable
    let st ← serveCallback set tsock.readCb ready.recv st tsock
    -- the callback may have closed the socket
    let tsock ← sure st.tsockets[place]?
    let set ← fdIsset tsock.sock ready.writable
    serveCallback set tsock.writeCb ready.recv st tsock
  | _ => .ok st

def serveHttp (turn : Turn) (st : Loop) (place : Nat) : Except Fault Loop := do
  let http ← sure st.https[place]?
  if http.sock > 0 then do
    let _ ← fdIsset http.sock (turn.httpReady place)
    .ok st
  else .ok st

-- The session afterwards, or none when irc_loop has freed it.
def readDcc (ready : DccReady) (dcc : Dcc) : Except Fault (Option Dcc) :=
  match dcc.status with
  | .connected | .hasUsername | .authenticated => do
    let set ← fdIsset dcc.sock ready.readable.isSome
    match set,ready.readable with
    | true,some .hangup => .ok none
    | true,some .dropped => .error .crash
    | true,some (.parsed status) => .ok (some { dcc with status := status })
    | _,_ => .ok (some dcc)
  | _ => .ok (some dcc)

def writeDcc (ready : DccReady) (dcc : Dcc) : Except Fault (Option Dcc) :=
  if dcc.status = .waitingConnect then do
    let set ← fdIsset dcc.sock ready.writable.isSome
    match set,ready.writable with
    | true,some none => .ok none
    | true,some (some error) => .ok (if error ≠ 0 then none else some { dcc with status := .notReady })
    | _,_ => .ok (some dcc)
  else .ok (some dcc)

def serveDcc (ready : DccReady) (dcc : Dcc) : Except Fault (Option Dcc) := do
  if dcc.sock = -1 then .ok none else
  match ← readDcc ready dcc with
  | none => .ok none
  | some dcc => writeDcc ready dcc

def serveDccs (ready : Nat → DccReady) : Nat → List Dcc → Except Fault (List Dcc)
  | _,[] => .ok []
  | place,dcc :: rest => do
    let dcc ← serveDcc (ready place) dcc
    let rest ← serveDccs ready (place + 1) rest
    .ok (dcc.toList ++ rest)

def acceptDcc (accepted : Option Nat) (net : Network) : Except Fault (List Dcc) :=
  if net.dccListener > 0 then do
    let set ← fdIsset net.dccListener accepted.isSome
    match set,accepted with
    | true,some fd => .ok (net.dccs ++ [⟨fd,.notReady⟩])
    | _,_ => .ok net.dccs
  else .ok net.dccs

def serveNetwork (turn : Turn) (st : Loop) (place : Nat) : Except Fault Loop := do
  let net ← sure st.networks[place]?
  let joined ← acceptDcc (turn.accepts place) net
  let dccs ← serveDccs (turn.dccs place) 0 joined
  .ok { st with networks := st.networks.set place { net with dccs := dccs } }

-- Of the networks with one label the first gets the sessions. The connections are in the list of
-- the old configuration, which nothing reads any more.
def copyOver (old : List Network) : List Nat → List NetworkBlock → List Network
  | _,[] => []
  | taken,block :: rest =>
    match block.old.bind (fun place => (old[place]?).map (fun net => (place,net))) with
    | none => newNetwork block :: copyOver old taken rest
    | some (place,net) =>
      { newNetwork block with
        dccs := if place ∈ taken then [] else net.dccs, dccListener := net.dccListener, status := net.status } ::
        copyOver old (place :: taken) rest

def Loop.eggRehash (st : Loop) : Option (List NetworkBlock × List (Option Str × Int)) → Loop
  | none => st
  | some (blocks,servers) => { st with
      networks := copyOver st.networks [] blocks, https := servers.map newHttpServer, tsockets := [] }

def step (st : Loop) (turn : Turn) : Except Fault Loop :=
  match st.phase with
  | .start => do
    let st ← sweep (httpServerListen turn) st (List.range st.https.length)
    let st ← sweep (firstConnect turn) st (List.range st.networks.length)
    .ok { st with phase := .networks }
  | .networks => do
    let st ← sweep (pollNetwork turn) { st with sockcount := 0 } (List.range st.networks.length)
    .ok { st with phase := .https }
  | .https => do
    let st ← sweep (pollHttp turn) st (List.range st.https.length)
    .ok { st with phase := .polls }
  | .polls => do
    let st ← sweep pollTsocket st (List.range st.tsockets.length)
    -- without a descriptor there is no select, and the next pass begins
    .ok { st with phase := if st.sockcount = 0 then .networks else .tsockets }
  | .tsockets => do
    let st ← sweep (serveTsocket turn) st (List.range st.tsockets.length)
    .ok { st with phase := .accepts }
  | .accepts => do
    let st ← sweep (serveHttp turn) st (List.range st.https.length)
    .ok { st with phase := .sessions }
  | .sessions => do
    let st ← sweep (serveNetwork turn) st (List.range st.networks.length)
    .ok { st.eggRehash turn.rehash with phase := .networks }

def stepOn (st : Loop) (turn : Turn) : Option Loop := (step st turn).toOption

def Phase.next : Phase → Phase
  | .start => .networks
  | .networks => .https
  | .https => .polls
  | .polls => .tsockets
  | .tsockets => .accepts
  | .accepts => .sessions
  | .sessions => .networks

-- No descriptor set is used with a negative descriptor, no null callback is called, and the pass
-- gets one loop further or, with nothing to wait for, ends. It has six loops.
def Safe (st : Loop) (turn : Turn) : Prop :=
  match step st turn with
  | .ok next => next.phase = st.phase.next ∨ (st.phase = .polls ∧ next.phase = .networks)
  | .error fault => fault = .crash

-- The HTTP server has not failed to listen, and does not fail to now.
def Listens (turn : Turn) (st : Loop) (place : Nat) : Prop :=
  ∀ http, st.https[place]? = some http →
    http.sock ≠ -2 ∧ (http.sock = -1 → http.host.isSome ∧ (turn.listens place).isSome)

-- The peer of a socket in the descriptor set has not closed it.
def StaysOpen (turn : Turn) (st : Loop) (place : Nat) : Prop :=
  ∀ tsock, st.tsockets[place]? = some tsock → tsock.status = .inFdSet →
    (turn.ready place).readable = true → (turn.ready place).recv ≠ .closed

def Allowed (st : Loop) (turn : Turn) : Prop :=
  match st.phase with
  | .https => ∀ place, Listens turn st place
  | .tsockets => ∀ place, StaysOpen turn st place
  | _ => True

-- The status of a socket tells that it has a descriptor, and its callbacks are those of
-- network_connect, which leaves the disconnect callback out.
structure SoundTsocket (networks : List Network) (tsock : Tsocket) : Prop where
  polled : tsock.status = .connecting ∨ tsock.status = .inFdSet ∨ tsock.status = .notInFdSet → 0 ≤ tsock.sock
  read : tsock.readCb = some .ircIn
  write : tsock.writeCb = none
  disconnect : tsock.disconnectCb = none
  owner : ∃ net, networks[tsock.data]? = some net ∧ net.tsock = some tsock.id ∧ net.status ≠ .disconnected

structure SoundNetwork (net : Network) : Prop where
  listener : -1 ≤ net.dccListener
  sessions : ∀ dcc ∈ net.dccs, 0 ≤ dcc.sock

structure Sound (st : Loop) : Prop where
  tsockets : ∀ tsock ∈ st.tsockets, SoundTsocket st.networks tsock
  networks : ∀ net ∈ st.networks, SoundNetwork net
  https : ∀ http ∈ st.https, -2 ≤ http.sock

section
variable {st next : Loop} {tsock made : Tsocket} {networks : List Network}

theorem fdSet_ok {fd : Int} (positive : 0 ≤ fd) : fdSet fd = .ok () := by
  simp [fdSet,positive]

theorem fdIsset_ok {fd : Int} (positive : 0 ≤ fd) (ready : Bool) : fdIsset fd ready = .ok ready := by
  simp [fdIsset,positive]

theorem connect_keeps (tsock : Tsocket) (result : Connected) : ∃ sock status,
    (tsocketConnect tsock result).1 = { tsock with sock := sock, status := status } ∧
      ((tsocketConnect tsock result).2 = true → 0 ≤ sock) := by
  cases result with
  | noSocket => exact ⟨-1,tsock.status,rfl,by simp [tsocketConnect]⟩
  | failed fd => exact ⟨fd,tsock.status,rfl,by simp [tsocketConnect]⟩
  | instant fd => exact ⟨fd,_,rfl,by simp⟩
  | inProgress fd => exact ⟨fd,_,rfl,by simp⟩

theorem servers_tried {connects : Nat → Connected} (done : tryServers connects place servers tsock = (made,true)) :
    ∃ sock status, made = { tsock with sock := sock, status := status } ∧ 0 ≤ sock := by
  induction servers generalizing place tsock with
  | nil => simp [tryServers] at done
  | cons srv rest ih =>
      simp only [tryServers] at done
      split at done
      · obtain ⟨sock,status,same,positive⟩ := connect_keeps tsock (connects place)
        cases result : tsocketConnect tsock (connects place) with
        | mk tried success =>
            rw [result] at same positive done
            dsimp only at same
            cases success with
            | true =>
                simp only [Prod.mk.injEq,and_true] at done
                exact ⟨sock,status,by rw [← done,same],positive rfl⟩
            | false =>
                obtain ⟨sock',status',made',positive'⟩ := ih done
                exact ⟨sock',status',by rw [made',same],positive'⟩
      · exact ih done

theorem owner_kept {place : Nat} {net : Network} (sound : SoundTsocket networks tsock)
    (kept : ∀ old, networks[place]? = some old → old.status ≠ .disconnected →
      net.tsock = old.tsock ∧ net.status ≠ .disconnected) :
    SoundTsocket (networks.set place net) tsock := by
  obtain ⟨old,here,mine,live⟩ := sound.owner
  refine ⟨sound.polled,sound.read,sound.write,sound.disconnect,?_⟩
  by_cases same : tsock.data = place
  · subst same
    obtain ⟨tsock',status⟩ := kept old here live
    have inside := (List.getElem?_eq_some_iff.mp here).1
    exact ⟨net,by simp [inside],by rw [tsock',mine],status⟩
  · exact ⟨old,by rw [List.getElem?_set_ne (Ne.symm same)]; exact here,mine,live⟩

theorem set_sound {place : Nat} {net : Network} (sound : ∀ net ∈ networks, SoundNetwork net) (here : SoundNetwork net) :
    ∀ other ∈ networks.set place net, SoundNetwork other := by
  intro other member
  rcases List.mem_or_eq_of_mem_set member with old | rfl
  · exact sound other old
  · exact here

theorem networkConnect_sound {place : Nat} {net : Network} (sound : Sound st) (here : st.networks[place]? = some old)
    (unconnected : old.status = .disconnected) (network : SoundNetwork net) (status : net.status ≠ .disconnected)
    (connects : Nat → Connected) :
    Sound (st.networkConnect place net connects) ∧
      (st.networkConnect place net connects).networks = st.networks.set place { net with tsock := some st.made } := by
  have inside := (List.getElem?_eq_some_iff.mp here).1
  have network' : SoundNetwork { net with tsock := some st.made } := ⟨network.listener,network.sessions⟩
  have older : ∀ tsock ∈ st.tsockets, SoundTsocket (st.networks.set place { net with tsock := some st.made }) tsock := by
    intro tsock member
    refine owner_kept (sound.tsockets tsock member) ?_
    intro found same live
    rw [here,Option.some.injEq] at same
    exact absurd (same ▸ unconnected) live
  unfold Loop.networkConnect
  dsimp only
  split
  · rename_i made tried
    obtain ⟨sock,status',rfl,positive⟩ := servers_tried tried
    refine ⟨⟨?_,set_sound sound.networks network',sound.https⟩,rfl⟩
    intro tsock member
    rcases List.mem_cons.mp member with rfl | old
    · exact ⟨fun _ => positive,rfl,rfl,rfl,{ net with tsock := some st.made },by simp [inside],rfl,status⟩
    · exact older tsock old
  · exact ⟨⟨older,set_sound sound.networks network',sound.https⟩,rfl⟩

theorem firstConnect_sound (turn : Turn) (sound : Sound st) (here : st.networks[place]? = some net) (fresh : net.status = .disconnected) :
    ∃ next, firstConnect turn st place = .ok next ∧ Sound next ∧
      ∀ other, other ≠ place → next.networks[other]? = st.networks[other]? := by
  have network := sound.networks net (List.mem_of_getElem? here)
  have tried : SoundNetwork { net with lastTry := turn.now, status := .inProgress } := ⟨network.listener,network.sessions⟩
  obtain ⟨holds,networks⟩ := networkConnect_sound sound here fresh tried (by simp) (turn.connects place)
  refine ⟨_,by simp only [firstConnect,here,sure,orFault_some,ok_bind],holds,?_⟩
  intro other differ
  rw [networks,List.getElem?_set_ne (Ne.symm differ)]

theorem pollDcc_ok {dcc : Dcc} (positive : 0 ≤ dcc.sock) : ∃ next count, pollDcc dcc = .ok (next,count) ∧ 0 ≤ next.sock := by
  have open_ : dcc.sock ≠ -1 := by omega
  have set := fdSet_ok positive
  cases status : dcc.status with
  | nonblockConnect => exact ⟨{ dcc with status := .waitingConnect },1,by simp [pollDcc,status,set],positive⟩
  | notReady => exact ⟨{ dcc with status := .connected },1,by simp [pollDcc,status,open_,set],positive⟩
  | waiting => exact ⟨dcc,0,by simp [pollDcc,status],positive⟩
  | waitingConnect => exact ⟨dcc,0,by simp [pollDcc,status],positive⟩
  | _ => exact ⟨dcc,1,by simp [pollDcc,status,open_,set],positive⟩

theorem pollDccs_ok {dccs : List Dcc} (positive : ∀ dcc ∈ dccs, 0 ≤ dcc.sock) :
    ∃ next count, pollDccs dccs = .ok (next,count) ∧ ∀ dcc ∈ next, 0 ≤ dcc.sock := by
  induction dccs with
  | nil => exact ⟨[],0,rfl,by simp⟩
  | cons dcc rest ih =>
      obtain ⟨next,count,polled,good⟩ := pollDcc_ok (positive dcc (by simp))
      obtain ⟨others,more,later,all⟩ := ih (fun other member => positive other (by simp [member]))
      exact ⟨next :: others,count + more,by simp [pollDccs,polled,later],by simpa using ⟨good,all⟩⟩

-- Replacing a network by one with the same connection keeps the rest.
theorem replace_sound {place : Nat} {old net : Network} (sound : Sound st) (here : st.networks[place]? = some old)
    (network : SoundNetwork net) (tsock : net.tsock = old.tsock) (status : old.status ≠ .disconnected → net.status ≠ .disconnected) :
    Sound { st with networks := st.networks.set place net } := by
  refine ⟨?_,set_sound sound.networks network,sound.https⟩
  intro tsock' member
  refine owner_kept (sound.tsockets tsock' member) ?_
  intro found same live
  rw [here,Option.some.injEq] at same
  subst same
  exact ⟨tsock,status live⟩

theorem sound_count (sound : Sound st) (count : Nat) (phase : Phase) : Sound { st with sockcount := count, phase := phase } :=
  ⟨sound.tsockets,sound.networks,sound.https⟩

theorem retry_sound (turn : Turn) (sound : Sound st) (here : st.networks[place]? = some net) :
    ∃ net', (retry turn st place net).networks[place]? = some net' ∧ Sound (retry turn st place net) := by
  have network := sound.networks net (List.mem_of_getElem? here)
  unfold retry
  by_cases due : retries turn net = true
  · have unconnected : net.status = .disconnected := by
      simp only [retries,Bool.and_eq_true,decide_eq_true_eq] at due
      exact due.1.1
    have tried : SoundNetwork { net with status := .inProgress, lastTry := turn.now } := ⟨network.listener,network.sessions⟩
    obtain ⟨holds,networks⟩ := networkConnect_sound sound here unconnected tried (by simp) (turn.connects place)
    have inside := (List.getElem?_eq_some_iff.mp here).1
    rw [if_pos due]
    exact ⟨_,by rw [networks,List.getElem?_set_self inside],holds⟩
  · rw [if_neg due]
    exact ⟨net,here,sound⟩

theorem pollListener_ok (network : SoundNetwork net) : ∃ count, pollListener net = .ok count := by
  unfold pollListener
  by_cases listens : net.dccListener ≠ -1
  · have positive : 0 ≤ net.dccListener := by
      have := network.listener
      omega
    exact ⟨1,by rw [if_pos listens,fdSet_ok positive,ok_bind]⟩
  · exact ⟨0,by rw [if_neg listens]⟩

theorem pollNetwork_sound {turn : Turn} (sound : Sound st) (here : st.networks[place]? = some net) :
    ∃ next, pollNetwork turn st place = .ok next ∧ Sound next := by
  obtain ⟨net',here',holds⟩ := retry_sound turn sound here
  have network := holds.networks net' (List.mem_of_getElem? here')
  obtain ⟨listening,listens⟩ := pollListener_ok network
  obtain ⟨dccs,count,polled,positive⟩ := pollDccs_ok network.sessions
  have polled' : SoundNetwork { net' with dccs := dccs } := ⟨network.listener,positive⟩
  have replaced := replace_sound holds here' polled' rfl id
  simp only [pollNetwork,here,sure,orFault_some,ok_bind,here',listens,polled]
  exact ⟨_,rfl,sound_count replaced _ (retry turn st place net).phase⟩

theorem pollTsocket_sound (sound : Sound st) (here : st.tsockets[place]? = some tsock) :
    ∃ next, pollTsocket st place = .ok next ∧ Sound next := by
  have member := List.mem_of_getElem? here
  obtain ⟨polled,read,write,disconnect,owner⟩ := sound.tsockets tsock member
  have entered : 0 ≤ tsock.sock →
      Sound { st with tsockets := st.tsockets.set place { tsock with status := .inFdSet }, sockcount := st.sockcount + 1 } := by
    intro positive
    refine ⟨?_,sound.networks,sound.https⟩
    intro other inside
    rcases List.mem_or_eq_of_mem_set inside with old | rfl
    · exact sound.tsockets other old
    · exact ⟨fun _ => positive,read,write,disconnect,owner⟩
  cases status : tsock.status with
  | connecting =>
      have set := fdSet_ok (polled (.inl status))
      refine ⟨{ st with sockcount := st.sockcount + 1 },?_,sound_count sound _ st.phase⟩
      simp only [pollTsocket,here,sure,orFault_some,ok_bind,status,set]
  | inFdSet =>
      have positive := polled (.inr (.inl status))
      refine ⟨{ st with tsockets := st.tsockets.set place { tsock with status := .inFdSet }, sockcount := st.sockcount + 1 },?_,
        entered positive⟩
      simp only [pollTsocket,here,sure,orFault_some,ok_bind,status,fdSet_ok positive]
  | notInFdSet =>
      have positive := polled (.inr (.inr status))
      refine ⟨{ st with tsockets := st.tsockets.set place { tsock with status := .inFdSet }, sockcount := st.sockcount + 1 },?_,
        entered positive⟩
      simp only [pollTsocket,here,sure,orFault_some,ok_bind,status,fdSet_ok positive]
  | _ => exact ⟨st,by simp only [pollTsocket,here,sure,orFault_some,ok_bind,status],sound⟩

theorem readDcc_ok {dcc : Dcc} (positive : 0 ≤ dcc.sock) (ready : DccReady) :
    (∃ next, readDcc ready dcc = .ok next ∧ ∀ dcc ∈ next, 0 ≤ dcc.sock) ∨ readDcc ready dcc = .error .crash := by
  unfold readDcc
  split
  case h_4 => exact .inl ⟨some dcc,rfl,by simpa using positive⟩
  all_goals
    rw [fdIsset_ok positive,ok_bind]
    cases ready.readable with
    | none => exact .inl ⟨some dcc,rfl,by simpa using positive⟩
    | some read =>
        cases read with
        | hangup => exact .inl ⟨none,rfl,by simp⟩
        | dropped => exact .inr rfl
        | parsed status => exact .inl ⟨some { dcc with status := status },rfl,by simpa using positive⟩

theorem writeDcc_ok {dcc : Dcc} (positive : 0 ≤ dcc.sock) (ready : DccReady) :
    ∃ next, writeDcc ready dcc = .ok next ∧ ∀ dcc ∈ next, 0 ≤ dcc.sock := by
  unfold writeDcc
  by_cases waiting : dcc.status = .waitingConnect
  · rw [if_pos waiting,fdIsset_ok positive,ok_bind]
    cases ready.writable with
    | none => exact ⟨some dcc,rfl,by simpa using positive⟩
    | some result =>
        cases result with
        | none => exact ⟨none,rfl,by simp⟩
        | some error =>
            by_cases failed : error ≠ 0
            · exact ⟨none,by simp [failed],by simp⟩
            · exact ⟨some { dcc with status := .notReady },by simp [failed],by simpa using positive⟩
  · rw [if_neg waiting]
    exact ⟨some dcc,rfl,by simpa using positive⟩

theorem serveDcc_ok {dcc : Dcc} (positive : 0 ≤ dcc.sock) (ready : DccReady) :
    (∃ next, serveDcc ready dcc = .ok next ∧ ∀ dcc ∈ next, 0 ≤ dcc.sock) ∨ serveDcc ready dcc = .error .crash := by
  have open_ : dcc.sock ≠ -1 := by omega
  simp only [serveDcc,if_neg open_]
  rcases readDcc_ok positive ready with ⟨read,done,good⟩ | crash
  · cases read with
    | none => exact .inl ⟨none,by simp [done],by simp⟩
    | some after =>
        obtain ⟨next,written,kept⟩ := writeDcc_ok (good after rfl) ready
        exact .inl ⟨next,by simp [done,written],kept⟩
  · exact .inr (by simp [crash])

theorem serveDccs_ok {dccs : List Dcc} (positive : ∀ dcc ∈ dccs, 0 ≤ dcc.sock) (ready : Nat → DccReady) (place : Nat) :
    (∃ next, serveDccs ready place dccs = .ok next ∧ ∀ dcc ∈ next, 0 ≤ dcc.sock) ∨ serveDccs ready place dccs = .error .crash := by
  induction dccs generalizing place with
  | nil => exact .inl ⟨[],rfl,by simp⟩
  | cons dcc rest ih =>
      rcases serveDcc_ok (positive dcc (by simp)) (ready place) with ⟨next,served,good⟩ | crash
      · rcases ih (fun other member => positive other (by simp [member])) (place + 1) with ⟨others,later,all⟩ | crash
        · refine .inl ⟨next.toList ++ others,by simp [serveDccs,served,later],?_⟩
          intro other member
          rcases List.mem_append.mp member with first | more
          · exact good other (Option.mem_toList.mp first)
          · exact all other more
        · exact .inr (by simp [serveDccs,served,crash])
      · exact .inr (by simp [serveDccs,crash])

theorem sessions_joined {fd : Nat} (network : SoundNetwork net) : ∀ dcc ∈ net.dccs ++ [⟨fd,status⟩], 0 ≤ dcc.sock := by
  intro dcc member
  rcases List.mem_append.mp member with old | new
  · exact network.sessions dcc old
  · rw [List.mem_singleton.mp new]
    simp

theorem acceptDcc_ok (network : SoundNetwork net) (accepted : Option Nat) :
    ∃ joined, acceptDcc accepted net = .ok joined ∧ ∀ dcc ∈ joined, 0 ≤ dcc.sock := by
  unfold acceptDcc
  by_cases listens : net.dccListener > 0
  · rw [if_pos listens,fdIsset_ok (by omega),ok_bind]
    cases accepted with
    | none => exact ⟨net.dccs,rfl,network.sessions⟩
    | some fd => exact ⟨net.dccs ++ [⟨fd,.notReady⟩],rfl,sessions_joined network⟩
  · rw [if_neg listens]
    exact ⟨net.dccs,rfl,network.sessions⟩

theorem serveNetwork_sound {turn : Turn} (sound : Sound st) (here : st.networks[place]? = some net) :
    (∃ next, serveNetwork turn st place = .ok next ∧ Sound next) ∨ serveNetwork turn st place = .error .crash := by
  have network := sound.networks net (List.mem_of_getElem? here)
  obtain ⟨joined,done,positive⟩ := acceptDcc_ok network (turn.accepts place)
  simp only [serveNetwork,here,sure,orFault_some,ok_bind,done]
  rcases serveDccs_ok positive (turn.dccs place) 0 with ⟨dccs,served,kept⟩ | crash
  · refine .inl ⟨{ st with networks := st.networks.set place { net with dccs := dccs } },by rw [served,ok_bind],?_⟩
    exact replace_sound sound here ⟨network.listener,kept⟩ rfl id
  · exact .inr (by rw [crash,error_bind])

theorem pollHttp_sound {turn : Turn} (sound : Sound st) (here : st.https[place]? = some http) (fine : Listens turn st place) :
    ∃ next, pollHttp turn st place = .ok next ∧ (Sound next ∧ next.https.length = st.https.length) ∧
      ∀ other, other ≠ place → next.https[other]? = st.https[other]? := by
  obtain ⟨goes,opens⟩ := fine http here
  have low := sound.https http (List.mem_of_getElem? here)
  obtain ⟨made,initialised,positive⟩ : ∃ made : HttpServer, (if http.sock = -1 then httpInitListener http (turn.listens place) else http) = made ∧
      0 ≤ made.sock := by
    by_cases closed : http.sock = -1
    · obtain ⟨host,fd⟩ := opens closed
      obtain ⟨fd,listens⟩ := Option.isSome_iff_exists.mp fd
      have known : http.host ≠ none := Option.isSome_iff_ne_none.mp host
      exact ⟨{ http with sock := fd },by simp [closed,httpInitListener,known,listens],by simp⟩
    · exact ⟨http,by rw [if_neg closed],by omega⟩
  refine ⟨{ st with https := st.https.set place made, sockcount := st.sockcount + 1 },?_,⟨⟨sound.tsockets,sound.networks,?_⟩,by simp⟩,?_⟩
  · simp only [pollHttp,here,sure,orFault_some,ok_bind,if_neg goes,initialised,fdSet_ok positive]
  · intro other member
    rcases List.mem_or_eq_of_mem_set member with old | rfl
    · exact sound.https other old
    · omega
  · intro other differ
    exact List.getElem?_set_ne (Ne.symm differ)

theorem pollHttp_fails {turn : Turn} (here : st.https[place]? = some http) (bad : ¬Listens turn st place) :
    ∃ fault, pollHttp turn st place = .error fault ∧ fault ≠ .crash := by
  simp only [pollHttp,here,sure,orFault_some,ok_bind]
  by_cases stuck : http.sock = -2
  · exact ⟨.endless,by rw [if_pos stuck],by simp⟩
  · have closed : http.sock = -1 := by
      by_contra open_
      refine bad ?_
      intro other same
      rw [here,Option.some.injEq] at same
      subst same
      exact ⟨stuck,fun closed => absurd closed open_⟩
    have unlistened : http.host.isSome → turn.listens place = none := by
      intro host
      by_contra listens
      refine bad ?_
      intro other same
      rw [here,Option.some.injEq] at same
      subst same
      exact ⟨stuck,fun _ => ⟨host,Option.isSome_iff_ne_none.mpr listens⟩⟩
    have failed : httpInitListener http (turn.listens place) = { http with sock := -2 } := by
      unfold httpInitListener
      by_cases host : http.host = none
      · rw [if_pos host]
      · rw [if_neg host,unlistened (Option.isSome_iff_ne_none.mpr host)]
    exact ⟨.badFd,by simp [closed,failed,fdSet],by simp⟩

theorem effects_sound {net : Network} (network : SoundNetwork net) (effects : List Effect) :
    SoundNetwork (effects.foldl Effect.on net) ∧ (effects.foldl Effect.on net).tsock = net.tsock ∧
      (net.status ≠ .disconnected → (effects.foldl Effect.on net).status ≠ .disconnected) := by
  induction effects generalizing net with
  | nil => exact ⟨network,rfl,id⟩
  | cons effect rest ih =>
      have one : SoundNetwork (Effect.on net effect) ∧ (Effect.on net effect).tsock = net.tsock ∧
          (net.status ≠ .disconnected → (Effect.on net effect).status ≠ .disconnected) := by
        cases effect with
        | listen fd =>
            cases fd with
            | none => exact ⟨⟨by simp [Effect.on],network.sessions⟩,rfl,id⟩
            | some fd => exact ⟨⟨by simp [Effect.on],network.sessions⟩,rfl,id⟩
        | chat fd => exact ⟨⟨network.listener,sessions_joined network⟩,rfl,id⟩
        | registered => exact ⟨⟨network.listener,network.sessions⟩,rfl,fun _ => by simp [Effect.on]⟩
      obtain ⟨holds,tsock,status⟩ := one
      obtain ⟨later,tsock',status'⟩ := ih holds
      exact ⟨later,tsock'.trans tsock,fun live => status' (status live)⟩

theorem check_sound (sound : SoundTsocket networks tsock) (connecting : tsock.status = .connecting) (valopt : Option Nat) :
    SoundTsocket networks (tsocketCheckNonblockingConnect tsock valopt) := by
  obtain ⟨polled,read,write,disconnect,owner⟩ := sound
  have positive := polled (.inl connecting)
  unfold tsocketCheckNonblockingConnect
  rw [if_pos connecting]
  cases valopt with
  | none => exact ⟨by simp,read,write,disconnect,owner⟩
  | some error =>
      by_cases failed : error ≠ 0
      · simp only [if_pos failed]
        exact ⟨by simp,read,write,disconnect,owner⟩
      · simp only [if_neg failed]
        exact ⟨fun _ => positive,read,write,disconnect,owner⟩

theorem ircIn_sound (sound : Sound st) (member : tsock ∈ st.tsockets) (opens : recv ≠ .closed) :
    ∃ next, ircIn st tsock recv = .ok (next,1) ∧ Sound next ∧ next.tsockets = st.tsockets := by
  obtain ⟨net,found,-,-⟩ := (sound.tsockets tsock member).owner
  cases recv with
  | failed => exact ⟨st,by simp [ircIn,sure,found],sound,rfl⟩
  | closed => exact absurd rfl opens
  | bytes effects =>
      obtain ⟨network,same,status⟩ := effects_sound (sound.networks net (List.mem_of_getElem? found)) effects
      exact ⟨_,by simp only [ircIn,sure,found,orFault_some,ok_bind],replace_sound sound found network same status,rfl⟩

theorem ircIn_closed (sound : Sound st) (member : tsock ∈ st.tsockets) : ∃ next, ircIn st tsock .closed = .ok (next,0) := by
  obtain ⟨net,found,mine,-⟩ := (sound.tsockets tsock member).owner
  have live : ∃ other, st.tsockets.find? (fun other => other.id = tsock.id) = some other :=
    Option.isSome_iff_exists.mp (List.find?_isSome.mpr ⟨tsock,member,by simp⟩)
  obtain ⟨other,live⟩ := live
  simp only [ircIn,sure,found,mine,live,orFault_some,ok_bind]
  exact ⟨_,rfl⟩

theorem serveTsocket_sound {turn : Turn} (sound : Sound st) (here : st.tsockets[place]? = some tsock) (fine : StaysOpen turn st place) :
    ∃ next, serveTsocket turn st place = .ok next ∧
      (Sound next ∧ next.tsockets.length = st.tsockets.length) ∧
      ∀ other, other ≠ place → next.tsockets[other]? = st.tsockets[other]? := by
  have member := List.mem_of_getElem? here
  have sock := sound.tsockets tsock member
  simp only [serveTsocket,here,sure,orFault_some,ok_bind]
  cases status : tsock.status with
  | connecting =>
      simp only [fdIsset_ok (sock.polled (.inl status)),ok_bind]
      by_cases set : (turn.ready place).writable = true
      · rw [if_pos set]
        refine ⟨_,rfl,⟨⟨?_,sound.networks,sound.https⟩,by simp⟩,?_⟩
        · intro other inside
          rcases List.mem_or_eq_of_mem_set inside with old | rfl
          · exact sound.tsockets other old
          · exact check_sound sock status _
        · intro other differ
          exact List.getElem?_set_ne (Ne.symm differ)
      · rw [if_neg set]
        exact ⟨st,rfl,⟨sound,rfl⟩,fun _ _ => rfl⟩
  | inFdSet =>
      have positive := sock.polled (.inr (.inl status))
      simp only [fdIsset_ok positive,ok_bind]
      obtain ⟨next,served,holds,same⟩ : ∃ next, serveCallback (turn.ready place).readable tsock.readCb (turn.ready place).recv st tsock = .ok next ∧
          Sound next ∧ next.tsockets = st.tsockets := by
        rw [sock.read]
        cases readable : (turn.ready place).readable with
        | false => exact ⟨st,rfl,sound,rfl⟩
        | true =>
            obtain ⟨next,taken,rest⟩ := ircIn_sound sound member (fine tsock here status readable)
            exact ⟨next,by simp [serveCallback,call,taken],rest⟩
      have still : next.tsockets[place]? = some tsock := by rw [same,here]
      have quiet : serveCallback (turn.ready place).writable tsock.writeCb (turn.ready place).recv next tsock = .ok next := by
        rw [sock.write]
        cases (turn.ready place).writable <;> rfl
      refine ⟨next,?_,⟨holds,by rw [same]⟩,fun _ _ => by rw [same]⟩
      simp only [served,ok_bind,still,orFault_some,fdIsset_ok positive,quiet]
  | _ => exact ⟨st,rfl,⟨sound,rfl⟩,fun _ _ => rfl⟩

theorem serveTsocket_fails {turn : Turn} (sound : Sound st) (here : st.tsockets[place]? = some tsock) (bad : ¬StaysOpen turn st place) :
    ∃ fault, serveTsocket turn st place = .error fault ∧ fault ≠ .crash := by
  have member := List.mem_of_getElem? here
  have sock := sound.tsockets tsock member
  obtain ⟨status,readable,closed⟩ : tsock.status = .inFdSet ∧ (turn.ready place).readable = true ∧ (turn.ready place).recv = .closed := by
    by_contra other
    refine bad ?_
    intro same found status readable closed
    rw [here,Option.some.injEq] at found
    subst found
    exact other ⟨status,readable,closed⟩
  obtain ⟨next,taken⟩ := ircIn_closed sound member
  refine ⟨.nullCall,?_,by simp⟩
  simp [serveTsocket,here,sure,status,fdIsset_ok (sock.polled (.inr (.inl status))),readable,closed,serveCallback,sock.read,
    call,taken,sock.disconnect]

theorem newNetwork_sound (block : NetworkBlock) : SoundNetwork (newNetwork block) := ⟨by simp [newNetwork],by simp [newNetwork]⟩

theorem copyOver_sound (old : ∀ net ∈ networks, SoundNetwork net) (taken : List Nat) (blocks : List NetworkBlock) :
    ∀ net ∈ copyOver networks taken blocks, SoundNetwork net := by
  induction blocks generalizing taken with
  | nil => simp [copyOver]
  | cons block rest ih =>
      intro net member
      simp only [copyOver] at member
      split at member
      · rcases List.mem_cons.mp member with rfl | later
        · exact newNetwork_sound block
        · exact ih taken net later
      · rename_i place matched found
        obtain ⟨place',-,here⟩ := Option.bind_eq_some_iff.mp found
        obtain ⟨same,here,copied⟩ := Option.map_eq_some_iff.mp here
        have sound := old same (List.mem_of_getElem? here)
        cases copied
        rcases List.mem_cons.mp member with rfl | later
        · refine ⟨sound.listener,?_⟩
          intro dcc inside
          dsimp only at inside
          split at inside
          · cases inside
          · exact sound.sessions dcc inside
        · exact ih _ net later

theorem eggRehash_sound (sound : Sound st) (config : Option (List NetworkBlock × List (Option Str × Int))) : Sound (st.eggRehash config) := by
  cases config with
  | none => exact sound
  | some config =>
      refine ⟨by simp [Loop.eggRehash],copyOver_sound sound.networks [] config.1,?_⟩
      intro http member
      obtain ⟨server,-,rfl⟩ := List.mem_map.mp member
      simp [newHttpServer]

def Prepared (st : Loop) : Prop := Sound st ∧ (st.phase = .start → ∀ net ∈ st.networks, net.status = .disconnected)

theorem start_prepared (blocks : List NetworkBlock) (servers : List (Option Str × Int)) : Prepared (.start blocks servers) := by
  refine ⟨⟨by simp [Loop.start],?_,?_⟩,fun _ => ?_⟩
  · intro net member
    obtain ⟨block,-,rfl⟩ := List.mem_map.mp member
    exact newNetwork_sound block
  · intro http member
    obtain ⟨server,-,rfl⟩ := List.mem_map.mp member
    simp [newHttpServer]
  · intro net member
    obtain ⟨block,-,rfl⟩ := List.mem_map.mp member
    rfl

def Visits (visit : Loop → Nat → Except Fault Loop) : Prop :=
  ∀ st place, Sound st → (∃ next, visit st place = .ok next ∧ Sound next) ∨ visit st place = .error .crash

theorem sound_sweep {visit : Loop → Nat → Except Fault Loop} (visits : Visits visit) (length : Nat) (sound : Sound st) :
    (∃ next, sweep visit st (List.range length) = .ok next ∧ Sound next) ∨ sweep visit st (List.range length) = .error .crash := by
  have ran := sweep_runs visit Sound (fun _ _ => True) (· = .crash) (List.range length)
    ?_ List.nodup_range sound (fun _ _ => trivial)
  · rcases ran with done | ⟨fault,stops,rfl⟩
    · exact .inl done
    · exact .inr stops
  · intro st place _ sound _
    rcases visits st place sound with ⟨next,done,holds⟩ | crash
    · exact .inl ⟨next,done,holds,fun _ _ _ => trivial⟩
    · exact .inr ⟨.crash,crash,rfl⟩

theorem pollNetwork_visits (turn : Turn) : Visits (pollNetwork turn) := by
  intro st place sound
  cases here : st.networks[place]? with
  | none => exact .inr (by simp [pollNetwork,sure,here])
  | some net => exact .inl (pollNetwork_sound sound here)

theorem pollTsocket_visits : Visits pollTsocket := by
  intro st place sound
  cases here : st.tsockets[place]? with
  | none => exact .inr (by simp [pollTsocket,sure,here])
  | some tsock => exact .inl (pollTsocket_sound sound here)

theorem serveHttp_visits (turn : Turn) : Visits (serveHttp turn) := by
  intro st place sound
  cases here : st.https[place]? with
  | none => exact .inr (by simp [serveHttp,sure,here])
  | some http =>
      refine .inl ⟨st,?_,sound⟩
      simp only [serveHttp,sure,here,orFault_some,ok_bind]
      by_cases open_ : http.sock > 0
      · rw [if_pos open_,fdIsset_ok (by omega),ok_bind]
      · rw [if_neg open_]

theorem serveNetwork_visits (turn : Turn) : Visits (serveNetwork turn) := by
  intro st place sound
  cases here : st.networks[place]? with
  | none => exact .inr (by simp [serveNetwork,sure,here])
  | some net => exact serveNetwork_sound sound here

theorem exact_sweep {α : Type} {visit : Loop → Nat → Except Fault Loop} (items : Loop → List α) (fine : Loop → Nat → Prop)
    (depends : ∀ st next other, (items next)[other]? = (items st)[other]? → (fine next other ↔ fine st other))
    (beyond : ∀ st place, (items st)[place]? = none → fine st place)
    (visits : ∀ st place item, Sound st → (items st)[place]? = some item → fine st place → ∃ next, visit st place = .ok next ∧
      (Sound next ∧ (items next).length = (items st).length) ∧ ∀ other, other ≠ place → (items next)[other]? = (items st)[other]?)
    (stops : ∀ st place item, Sound st → (items st)[place]? = some item → ¬fine st place → ∃ fault, visit st place = .error fault ∧ fault ≠ .crash)
    (sound : Sound st) :
    ((∀ place, fine st place) ∧ ∃ next, sweep visit st (List.range (items st).length) = .ok next ∧ Sound next) ∨
    (¬(∀ place, fine st place) ∧ ∃ fault, sweep visit st (List.range (items st).length) = .error fault ∧ fault ≠ .crash) := by
  have item : ∀ st' : Loop, ∀ place ∈ List.range (items st).length, (items st').length = (items st).length →
      ∃ item, (items st')[place]? = some item := by
    intro st' place inside long
    have short := List.mem_range.mp inside
    exact ⟨_,List.getElem?_eq_getElem (by omega)⟩
  have whole : (∀ place ∈ List.range (items st).length, fine st place) ↔ ∀ place, fine st place := by
    refine ⟨fun all place => ?_,fun all place _ => all place⟩
    cases found : (items st)[place]? with
    | none => exact beyond st place found
    | some _ => exact all place (List.mem_range.mpr (List.getElem?_eq_some_iff.mp found).1)
  rw [← whole]
  have ran := sweep_exact visit (fun st' => Sound st' ∧ (items st').length = (items st).length) fine
    (· ≠ .crash) (List.range (items st).length) ?_ ?_ List.nodup_range ⟨sound,rfl⟩
  · rcases ran with ⟨all,next,done,holds,-⟩ | failed
    · exact .inl ⟨all,next,done,holds⟩
    · exact .inr failed
  · intro st' place inside ⟨sound',long⟩ goes
    obtain ⟨_,found⟩ := item st' place inside long
    obtain ⟨next,done,⟨holds,keeps⟩,others⟩ := visits st' place _ sound' found goes
    exact ⟨next,done,⟨holds,keeps.trans long⟩,fun other differ => depends st' next other (others other differ)⟩
  · intro st' place inside ⟨sound',long⟩ bad
    obtain ⟨_,found⟩ := item st' place inside long
    exact stops st' place _ sound' found bad

theorem https_sweep (turn : Turn) (sound : Sound st) :
    ((∀ place, Listens turn st place) ∧ ∃ next, sweep (pollHttp turn) st (List.range st.https.length) = .ok next ∧ Sound next) ∨
    (¬(∀ place, Listens turn st place) ∧ ∃ fault, sweep (pollHttp turn) st (List.range st.https.length) = .error fault ∧ fault ≠ .crash) := by
  refine exact_sweep Loop.https (Listens turn) ?_ ?_ ?_ ?_ sound
  · intro st next other same
    simp only [Listens,same]
  · intro st place none http found
    simp [none] at found
  · intro st place http sound found listens
    exact pollHttp_sound sound found listens
  · intro st place http _ found bad
    exact pollHttp_fails found bad

theorem tsockets_sweep (turn : Turn) (sound : Sound st) :
    ((∀ place, StaysOpen turn st place) ∧ ∃ next, sweep (serveTsocket turn) st (List.range st.tsockets.length) = .ok next ∧ Sound next) ∨
    (¬(∀ place, StaysOpen turn st place) ∧ ∃ fault, sweep (serveTsocket turn) st (List.range st.tsockets.length) = .error fault ∧ fault ≠ .crash) := by
  refine exact_sweep Loop.tsockets (StaysOpen turn) ?_ ?_ ?_ ?_ sound
  · intro st next other same
    simp only [StaysOpen,same]
  · intro st place none tsock found
    simp [none] at found
  · intro st place tsock sound found opens
    exact serveTsocket_sound sound found opens
  · intro st place tsock sound found bad
    exact serveTsocket_fails sound found bad

theorem listen_sweep (turn : Turn) (sound : Sound st) (fresh : ∀ net ∈ st.networks, net.status = .disconnected) :
    (∃ next, sweep (httpServerListen turn) st (List.range st.https.length) = .ok next ∧ Sound next ∧
      ∀ net ∈ next.networks, net.status = .disconnected) ∨
    sweep (httpServerListen turn) st (List.range st.https.length) = .error .crash := by
  have ran := sweep_runs (httpServerListen turn) (fun st => Sound st ∧ ∀ net ∈ st.networks, net.status = .disconnected)
    (fun _ _ => True) (· = .crash) (List.range st.https.length) ?_ List.nodup_range ⟨sound,fresh⟩ (fun _ _ => trivial)
  · rcases ran with done | ⟨fault,stops,rfl⟩
    · exact .inl done
    · exact .inr stops
  · intro st place _ ⟨sound,fresh⟩ _
    cases here : st.https[place]? with
    | none => exact .inr ⟨.crash,by simp [httpServerListen,sure,here],rfl⟩
    | some http =>
        simp only [httpServerListen,sure,here,orFault_some,ok_bind]
        by_cases host : http.host = none
        · rw [if_pos host]
          exact .inl ⟨st,rfl,⟨sound,fresh⟩,fun _ _ _ => trivial⟩
        · rw [if_neg host]
          refine .inl ⟨_,rfl,⟨⟨sound.tsockets,sound.networks,?_⟩,fresh⟩,fun _ _ _ => trivial⟩
          intro other member
          rcases List.mem_or_eq_of_mem_set member with old | rfl
          · exact sound.https other old
          · cases turn.listens place <;> simp

theorem connect_sweep (turn : Turn) (sound : Sound st) (fresh : ∀ net ∈ st.networks, net.status = .disconnected) :
    (∃ next, sweep (firstConnect turn) st (List.range st.networks.length) = .ok next ∧ Sound next) ∨
    sweep (firstConnect turn) st (List.range st.networks.length) = .error .crash := by
  have ran := sweep_runs (firstConnect turn) Sound
    (fun st place => ∀ net, st.networks[place]? = some net → net.status = .disconnected)
    (· = .crash) (List.range st.networks.length) ?_ List.nodup_range sound
    (fun place _ net found => fresh net (List.mem_of_getElem? found))
  · rcases ran with done | ⟨fault,stops,rfl⟩
    · exact .inl done
    · exact .inr stops
  · intro st place _ sound fresh
    cases here : st.networks[place]? with
    | none => exact .inr ⟨.crash,by simp [firstConnect,sure,here],rfl⟩
    | some net =>
        obtain ⟨next,done,holds,others⟩ := firstConnect_sound turn sound here (fresh net here)
        refine .inl ⟨next,done,holds,?_⟩
        intro other differ fine
        rw [others other differ]
        exact fine

theorem prepared_later (sound : Sound st) (later : phase ≠ .start) : Prepared { st with phase := phase } :=
  ⟨⟨sound.tsockets,sound.networks,sound.https⟩,fun same => absurd same later⟩

-- What a step gives: the pass gets on, a crash, or one of the faults the pass is to be free of.
theorem step_outcome (prepared : Prepared st) (turn : Turn) :
    (Allowed st turn ∧ (step st turn = .error .crash ∨ ∃ next, step st turn = .ok next ∧ Prepared next ∧
      (next.phase = st.phase.next ∨ (st.phase = .polls ∧ next.phase = .networks)))) ∨
    (¬Allowed st turn ∧ ∃ fault, step st turn = .error fault ∧ fault ≠ .crash) := by
  obtain ⟨sound,fresh⟩ := prepared
  cases phase : st.phase with
  | start =>
      refine .inl ⟨by simp [Allowed,phase],?_⟩
      rcases listen_sweep turn sound (fresh phase) with ⟨listening,done,holds,unconnected⟩ | crash
      · rcases connect_sweep turn holds unconnected with ⟨next,connected,ends⟩ | crash
        · exact .inr ⟨_,by simp only [step,phase,done,connected,ok_bind],prepared_later ends (by simp),.inl rfl⟩
        · exact .inl (by simp only [step,phase,done,crash,ok_bind,error_bind])
      · exact .inl (by simp only [step,phase,crash,error_bind])
  | networks =>
      refine .inl ⟨by simp [Allowed,phase],?_⟩
      simp only [step,phase]
      rcases sound_sweep (pollNetwork_visits turn) st.networks.length (sound_count sound 0 .networks) with ⟨next,done,holds⟩ | crash
      · exact .inr ⟨{ next with phase := .https },by rw [done,ok_bind],prepared_later holds (by simp),.inl rfl⟩
      · exact .inl (by rw [crash,error_bind])
  | https =>
      simp only [step,Allowed,phase]
      rcases https_sweep turn sound with ⟨allows,next,done,holds⟩ | ⟨refused,fault,stops,bad⟩
      · exact .inl ⟨allows,.inr ⟨{ next with phase := .polls },by rw [done,ok_bind],prepared_later holds (by simp),.inl rfl⟩⟩
      · exact .inr ⟨refused,fault,by rw [stops,error_bind],bad⟩
  | polls =>
      refine .inl ⟨by simp [Allowed,phase],?_⟩
      simp only [step,phase]
      rcases sound_sweep pollTsocket_visits st.tsockets.length sound with ⟨next,done,holds⟩ | crash
      · rw [done,ok_bind]
        by_cases idle : next.sockcount = 0
        · rw [if_pos idle]
          exact .inr ⟨{ next with phase := .networks },rfl,prepared_later holds (by simp),.inr ⟨trivial,rfl⟩⟩
        · rw [if_neg idle]
          exact .inr ⟨{ next with phase := .tsockets },rfl,prepared_later holds (by simp),.inl rfl⟩
      · exact .inl (by rw [crash,error_bind])
  | tsockets =>
      simp only [step,Allowed,phase]
      rcases tsockets_sweep turn sound with ⟨allows,next,done,holds⟩ | ⟨refused,fault,stops,bad⟩
      · exact .inl ⟨allows,.inr ⟨{ next with phase := .accepts },by rw [done,ok_bind],prepared_later holds (by simp),.inl rfl⟩⟩
      · exact .inr ⟨refused,fault,by rw [stops,error_bind],bad⟩
  | accepts =>
      refine .inl ⟨by simp [Allowed,phase],?_⟩
      simp only [step,phase]
      rcases sound_sweep (serveHttp_visits turn) st.https.length sound with ⟨next,done,holds⟩ | crash
      · exact .inr ⟨{ next with phase := .sessions },by rw [done,ok_bind],prepared_later holds (by simp),.inl rfl⟩
      · exact .inl (by rw [crash,error_bind])
  | sessions =>
      refine .inl ⟨by simp [Allowed,phase],?_⟩
      simp only [step,phase]
      rcases sound_sweep (serveNetwork_visits turn) st.networks.length sound with ⟨next,done,holds⟩ | crash
      · exact .inr ⟨{ next.eggRehash turn.rehash with phase := .networks },by rw [done,ok_bind],
          prepared_later (eggRehash_sound holds turn.rehash) (by simp),.inl rfl⟩
      · exact .inl (by rw [crash,error_bind])

theorem safe_iff (prepared : Prepared st) (turn : Turn) : Safe st turn ↔ Allowed st turn := by
  unfold Safe
  rcases step_outcome prepared turn with ⟨allows,crash | ⟨next,done,-,moves⟩⟩ | ⟨refused,fault,stops,bad⟩
  · simp [crash,allows]
  · rw [done]
    exact iff_of_true moves allows
  · rw [stops]
    exact iff_of_false bad refused

theorem step_prepared (prepared : Prepared st) (safe : Safe st turn) (taken : stepOn st turn = some next) : Prepared next := by
  rcases step_outcome prepared turn with ⟨-,crash | ⟨after,done,holds,-⟩⟩ | ⟨refused,-⟩
  · rw [stepOn,crash] at taken
    cases taken
  · rw [stepOn,done] at taken
    cases taken
    exact holds
  · exact absurd ((safe_iff prepared turn).mp safe) refused

end

theorem passes_safe (blocks : List NetworkBlock) (servers : List (Option Str × Int)) (turns : List Turn) :
    Meets stepOn Safe (.start blocks servers) turns ↔ Meets stepOn Allowed (.start blocks servers) turns :=
  meets_exact Prepared (fun _ turn prepared => safe_iff prepared turn) (fun _ _ _ prepared safe taken => step_prepared prepared safe taken)
    (start_prepared blocks servers)

def faultOf (result : Except Fault Loop) : Option Fault :=
  match result with
  | .ok _ => none
  | .error fault => some fault

-- A network with one server, which accepts the connection and then closes it.
def oneNetwork : NetworkBlock := ⟨none,1,60,none,[⟨some "irc".toList,6667⟩]⟩

def hungUp : Turn :=
  { now := 0, connects := fun _ _ => .instant 3, listens := fun _ => none, ready := fun _ => ⟨true,.closed,false,none⟩
    httpReady := fun _ => false, accepts := fun _ => none, dccs := fun _ _ => ⟨none,none⟩, rehash := none }

theorem closed_connection_calls_null : ¬∀ (blocks : List NetworkBlock) (servers : List (Option Str × Int)) (turns : List Turn),
    Meets stepOn Safe (.start blocks servers) turns := by
  intro claim
  have steps := claim [oneNetwork] [] ([hungUp,hungUp,hungUp,hungUp] ++ [hungUp])
  have fails : (run stepOn (.start [oneNetwork] []) [hungUp,hungUp,hungUp,hungUp]).map (fun st => faultOf (step st hungUp)) =
      some (some .nullCall) := by
    decide
  obtain ⟨last,ran,called⟩ := Option.map_eq_some_iff.mp fails
  have safe := meets_last steps ran
  cases result : step last hungUp with
  | ok next => simp [result,faultOf] at called
  | error fault =>
      rw [Safe,result] at safe
      subst safe
      simp [result,faultOf] at called

end Trollbot.EventLoop

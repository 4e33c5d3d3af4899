import Trollbot.Util

namespace Trollbot.Rehash

-- Records are named by their addresses, and the lists a rehash only passes along are lists of
-- addresses. `net` and `data` are the back pointers of a session and of a socket.
structure DccSession where
  id : Nat
  net : Nat
deriving DecidableEq

structure Tsocket where
  id : Nat
  data : Nat
deriving DecidableEq

structure Network where
  id : Nat
  label : Option Str
  curServer : Option Nat
  servers : List Nat
  chans : List Nat
  tsock : Option Tsocket
  shost : Option Str
  status : Nat
  users : List Nat
  dccs : List DccSession
  dccListener : Int
  trigs : Nat
deriving DecidableEq

-- What a network block of the configuration file sets here: the rest is as new_network left it.
structure NetworkBlock where
  id : Nat
  value : Option Str
  servers : List Nat
  channels : List Nat
  trigTable : Nat

def newNetwork (id : Nat) (label : Option Str) (trigTable : Nat) : Network :=
  { id := id, label := label, curServer := none, servers := [], chans := [], tsock := none, shost := none,
    status := 0, users := [], dccs := [], dccListener := -1, trigs := trigTable }

def configEngineLoad (blocks : List NetworkBlock) : List Network :=
  blocks.map (fun block => { newNetwork block.id block.value block.trigTable with
    servers := block.servers, chans := block.channels })

-- The fields copied into the new record, and the old record without the lists it gave away.
def copied (otmp ntmp : Network) : Network :=
  { ntmp with
    dccs := otmp.dccs, dccListener := otmp.dccListener, servers := otmp.servers, chans := otmp.chans
    shost := otmp.shost, status := otmp.status, users := otmp.users, trigs := otmp.trigs }

def emptied (otmp : Network) : Network :=
  { otmp with dccs := [], servers := [], chans := [], shost := none, users := [] }

-- The inner loop over the new networks. A network without a label faults in tstrcasecmp.
def copyOver (otmp : Network) : List Network → Option (Network × List Network)
  | [] => some (otmp,[])
  | ntmp :: rest => do
    let oldLabel ← otmp.label
    let newLabel ← ntmp.label
    if tstrcasecmp oldLabel newLabel = 0 then do
      let (otmp',rest') ← copyOver (emptied otmp) rest
      some (otmp',copied otmp ntmp :: rest')
    else do
      let (otmp',rest') ← copyOver otmp rest
      some (otmp',ntmp :: rest')

-- The outer loop. It steps to the next old network and frees that one; reading a freed record faults.
def overOld : List Nat → List Network → List Network → Option (List Network)
  | _,[],news => some news
  | freed,otmp :: rest,news =>
    if news = [] ∨ otmp.id ∈ freed then none else do
      let (_,news') ← copyOver otmp news
      overOld (((rest.head?.map (·.id)).toList) ++ freed) rest news'

def eggRehash (old : List Network) (blocks : List NetworkBlock) : Option (List Network) :=
  if old = [] then none else overOld [] old (configEngineLoad blocks)

def Matches (o n : Network) : Prop :=
  ∃ oldLabel newLabel, o.label = some oldLabel ∧ n.label = some newLabel ∧ tstrcasecmp oldLabel newLabel = 0

instance : Decidable (Matches o n) :=
  match h : o.label,k : n.label with
  | some a,some b => decidable_of_iff (tstrcasecmp a b = 0) (by simp [Matches,h,k])
  | none,_ => isFalse (by simp [Matches,h])
  | _,none => isFalse (by simp [Matches,k])

-- The live fields of an old network are those of a new record, and the back pointers lead to it.
structure Kept (o n : Network) : Prop where
  server : n.curServer = o.curServer
  channels : n.chans = o.chans
  socket : n.tsock.map (·.id) = o.tsock.map (·.id)
  status : n.status = o.status
  users : n.users = o.users
  sessions : n.dccs.map (·.id) = o.dccs.map (·.id)
  listener : n.dccListener = o.dccListener
  triggers : n.trigs = o.trigs
  sessionsFollow : ∀ dcc ∈ n.dccs, dcc.net = n.id
  socketFollows : ∀ tsock, n.tsock = some tsock → tsock.data = n.id

def KeepsLive (old : List Network) (blocks : List NetworkBlock) : Prop :=
  ∃ news, eggRehash old blocks = some news ∧ ∀ o ∈ old, ∀ n ∈ news, Matches o n → Kept o n

def matching (o : Network) (news : List Network) : List Network := news.filter (fun n => Matches o n)

-- One old network, at least one new, all labelled; and when a label matches, nothing runs on the
-- old network that the copied fields leave out.
def Carried (old : List Network) (blocks : List NetworkBlock) : Prop :=
  ∃ o, old = [o] ∧ blocks ≠ [] ∧ o.label.isSome ∧ (∀ block ∈ blocks, block.value.isSome) ∧
    (matching o (configEngineLoad blocks) ≠ [] → o.curServer = none ∧ o.tsock = none ∧ o.dccs = []) ∧
    (1 < (matching o (configEngineLoad blocks)).length → o.chans = [] ∧ o.users = [])

-- The sessions of a running network point to its record, and a new record is a new allocation.
def Apart (old : List Network) (blocks : List NetworkBlock) : Prop :=
  ∀ o ∈ old, (∀ dcc ∈ o.dccs, dcc.net = o.id) ∧ ∀ block ∈ blocks, block.id ≠ o.id

@[simp] theorem matches_copied : Matches o (copied x n) ↔ Matches o n := Iff.rfl
@[simp] theorem matches_emptied : Matches (emptied o) n ↔ Matches o n := Iff.rfl

theorem fresh_record (loaded : n ∈ configEngineLoad blocks) :
    ∃ block ∈ blocks, n.id = block.id ∧ n.label = block.value ∧ n.curServer = none ∧ n.tsock = none := by
  obtain ⟨block,member,rfl⟩ := List.mem_map.mp loaded
  exact ⟨block,member,rfl,rfl,rfl,rfl⟩

-- The loop faults exactly when it meets a missing label.
theorem copyOver_labels (ran : copyOver o news = some result) (member : n ∈ news) :
    o.label.isSome ∧ n.label.isSome := by
  induction news generalizing o result with
  | nil => cases member
  | cons first rest ih =>
      simp only [copyOver,Option.bind_eq_bind,Option.bind_eq_some_iff] at ran
      obtain ⟨oldLabel,old,newLabel,new,ran⟩ := ran
      refine ⟨by simp [old],?_⟩
      rcases List.mem_cons.mp member with rfl | later
      · simp [new]
      · split at ran
        · obtain ⟨_,more,-⟩ := Option.bind_eq_some_iff.mp ran
          exact (ih more later).2
        · obtain ⟨_,more,-⟩ := Option.bind_eq_some_iff.mp ran
          exact (ih more later).2

theorem copyOver_runs (old : o.label.isSome) (labels : ∀ n ∈ news, n.label.isSome) :
    ∃ result, copyOver o news = some result := by
  induction news generalizing o with
  | nil => exact ⟨_,rfl⟩
  | cons first rest ih =>
      obtain ⟨oldLabel,hold⟩ := Option.isSome_iff_exists.mp old
      obtain ⟨newLabel,hnew⟩ := Option.isSome_iff_exists.mp (labels first (by simp))
      have later : ∀ n ∈ rest, n.label.isSome := fun n member => labels n (by simp [member])
      by_cases same : tstrcasecmp oldLabel newLabel = 0
      · obtain ⟨result,more⟩ := ih (o := emptied o) old later
        exact ⟨_,by simp only [copyOver,hold,hnew,same,more,Option.bind_eq_bind,Option.bind_some,if_true]; rfl⟩
      · obtain ⟨result,more⟩ := ih (o := o) old later
        exact ⟨_,by simp only [copyOver,hold,hnew,same,more,Option.bind_eq_bind,Option.bind_some,if_false]; rfl⟩

theorem copyOver_cons (ran : copyOver o (first :: rest) = some (last,news)) :
    (Matches o first ∧ ∃ more, copyOver (emptied o) rest = some (last,more) ∧ news = copied o first :: more) ∨
    (¬Matches o first ∧ ∃ more, copyOver o rest = some (last,more) ∧ news = first :: more) := by
  simp only [copyOver,Option.bind_eq_bind,Option.bind_eq_some_iff] at ran
  obtain ⟨oldLabel,old,newLabel,new,ran⟩ := ran
  split at ran
  · rename_i same
    obtain ⟨⟨_,more⟩,step,done⟩ := Option.bind_eq_some_iff.mp ran
    cases Option.some.inj done
    exact .inl ⟨⟨oldLabel,newLabel,old,new,same⟩,more,step,rfl⟩
  · rename_i differ
    obtain ⟨⟨_,more⟩,step,done⟩ := Option.bind_eq_some_iff.mp ran
    cases Option.some.inj done
    refine .inr ⟨?_,more,step,rfl⟩
    rintro ⟨_,_,has,hasNew,same⟩
    rw [old,Option.some.injEq] at has
    rw [new,Option.some.injEq] at hasNew
    exact differ (has ▸ hasNew ▸ same)

-- Every new record is left alone, copied into first, or copied into from an emptied record.
theorem copyOver_members (ran : copyOver o news = some (last,after)) (member : n ∈ after) :
    (¬Matches o n ∧ n ∈ news) ∨
    ∃ m ∈ matching o news, n = copied o m ∨ (n = copied (emptied o) m ∧ 1 < (matching o news).length) := by
  induction news generalizing o after with
  | nil =>
      cases Option.some.inj ran
      cases member
  | cons first rest ih =>
      rcases copyOver_cons ran with ⟨hit,more,step,rfl⟩ | ⟨miss,more,step,rfl⟩
      · have count : matching o (first :: rest) = first :: matching o rest := by simp [matching,hit]
        rcases List.mem_cons.mp member with rfl | later
        · exact .inr ⟨first,by simp [count],.inl rfl⟩
        · rcases ih step later with ⟨miss,old⟩ | ⟨m,found,how⟩
          · exact .inl ⟨miss,by simp [old]⟩
          · have found' : m ∈ matching o rest := found
            have some : 0 < (matching o rest).length := List.length_pos_of_mem found'
            refine .inr ⟨m,by simp [count,found'],.inr ⟨?_,by simp [count,some]⟩⟩
            rcases how with rfl | ⟨rfl,-⟩ <;> rfl
      · have count : matching o (first :: rest) = matching o rest := by simp [matching,miss]
        rcases List.mem_cons.mp member with rfl | later
        · exact .inl ⟨miss,by simp⟩
        · rcases ih step later with ⟨none,old⟩ | other
          · exact .inl ⟨none,by simp [old]⟩
          · exact .inr (by rw [count]; exact other)

theorem copyOver_first (ran : copyOver o news = some (last,after)) (some : matching o news ≠ []) :
    ∃ m ∈ news, Matches o m ∧ copied o m ∈ after := by
  induction news generalizing after with
  | nil => exact absurd rfl some
  | cons first rest ih =>
      rcases copyOver_cons ran with ⟨hit,more,step,rfl⟩ | ⟨miss,more,step,rfl⟩
      · exact ⟨first,by simp,hit,by simp⟩
      · obtain ⟨m,member,hit,kept⟩ := ih step (by simpa [matching,miss] using some)
        exact ⟨m,by simp [member],hit,by simp [kept]⟩

theorem copyOver_second (ran : copyOver o news = some (last,after)) (two : 1 < (matching o news).length) :
    ∃ m ∈ news, Matches o m ∧ copied (emptied o) m ∈ after := by
  induction news generalizing after with
  | nil => simp [matching] at two
  | cons first rest ih =>
      rcases copyOver_cons ran with ⟨hit,more,step,rfl⟩ | ⟨miss,more,step,rfl⟩
      · have one : matching (emptied o) rest ≠ [] := by
          have length : 0 < (matching o rest).length := by simpa [matching,hit] using two
          exact List.ne_nil_of_length_pos length
        obtain ⟨m,member,hit,kept⟩ := copyOver_first step one
        exact ⟨m,by simp [member],hit,by simp [kept]⟩
      · obtain ⟨m,member,hit,kept⟩ := ih step (by simpa [matching,miss] using two)
        exact ⟨m,by simp [member],hit,by simp [kept]⟩

theorem copied_kept (fresh : n.curServer = none ∧ n.tsock = none)
    (idle : o.curServer = none ∧ o.tsock = none ∧ o.dccs = []) : Kept o (copied o n) := by
  refine ⟨?_,rfl,?_,rfl,rfl,rfl,rfl,rfl,?_,?_⟩
  · simp [copied,fresh.1,idle.1]
  · simp [copied,fresh.2,idle.2.1]
  · simp [copied,idle.2.2]
  · simp [copied,fresh.2]

-- With two or more old networks the second one is freed before its label is read.
theorem second_freed (old : List Network) : overOld freed (first :: second :: old) news = none := by
  unfold overOld
  split
  · rfl
  · cases inner : copyOver first news with
    | none => rfl
    | some result => simp [overOld]

theorem rehash_single (blocks : List NetworkBlock) (some : blocks ≠ []) :
    eggRehash [o] blocks = (copyOver o (configEngineLoad blocks)).map (·.2) := by
  have news : configEngineLoad blocks ≠ [] := by simpa [configEngineLoad] using some
  cases inner : copyOver o (configEngineLoad blocks) with
  | none => simp [eggRehash,overOld,news,inner]
  | some result => simp [eggRehash,overOld,news,inner]

theorem carried_keeps (carried : Carried old blocks) : KeepsLive old blocks := by
  obtain ⟨o,rfl,some,label,labels,idle,bare⟩ := carried
  have loaded : ∀ n ∈ configEngineLoad blocks, n.label.isSome := by
    intro n member
    obtain ⟨block,inFile,-,same,-⟩ := fresh_record member
    rw [same]
    exact labels block inFile
  obtain ⟨⟨last,news⟩,ran⟩ := copyOver_runs label loaded
  refine ⟨news,by simp [rehash_single blocks some,ran],?_⟩
  intro o' old n member hit
  obtain rfl : o' = o := by simpa using old
  rcases copyOver_members ran member with ⟨miss,-⟩ | ⟨m,found,rfl | ⟨rfl,two⟩⟩
  · exact absurd hit miss
  · obtain ⟨block,-,-,-,fresh⟩ := fresh_record (List.mem_of_mem_filter found)
    exact copied_kept fresh (idle (List.ne_nil_of_mem found))
  · obtain ⟨block,-,-,-,fresh⟩ := fresh_record (List.mem_of_mem_filter found)
    have empty := idle (List.ne_nil_of_mem found)
    have none := bare two
    have first := copied_kept fresh empty
    refine ⟨first.server,?_,first.socket,rfl,?_,?_,rfl,rfl,?_,first.socketFollows⟩
    · simp [copied,emptied,none.1]
    · simp [copied,emptied,none.2]
    · simp [copied,emptied,empty.2.2]
    · simp [copied,emptied]

theorem keeps_carried (apart : Apart old blocks) (keeps : KeepsLive old blocks) : Carried old blocks := by
  obtain ⟨news,ran,kept⟩ := keeps
  match old with
  | [] => simp [eggRehash] at ran
  | first :: second :: rest => simp [eggRehash,second_freed] at ran
  | [o] =>
      by_cases some : blocks = []
      · subst some
        simp [eggRehash,overOld,configEngineLoad] at ran
      rw [rehash_single blocks some,Option.map_eq_some_iff] at ran
      obtain ⟨⟨last,after⟩,ran,rfl⟩ := ran
      have labels : ∀ block ∈ blocks, o.label.isSome ∧ block.value.isSome := by
        intro block member
        have := copyOver_labels ran (List.mem_map_of_mem member)
        simpa [newNetwork] using this
      obtain ⟨block,inFile⟩ := List.exists_mem_of_ne_nil blocks some
      refine ⟨o,rfl,some,(labels block inFile).1,fun block member => (labels block member).2,?_,?_⟩
      · intro found
        obtain ⟨m,member,hit,inNews⟩ := copyOver_first ran found
        have same := kept o (by simp) _ inNews (by simpa using hit)
        obtain ⟨block,inFile,address,-,fresh⟩ := fresh_record member
        refine ⟨?_,?_,?_⟩
        · exact same.server.symm.trans fresh.1
        · have socket := same.socket
          rw [show (copied o m).tsock = none from fresh.2] at socket
          simpa using socket.symm
        · refine List.eq_nil_iff_forall_not_mem.mpr ?_
          intro dcc session
          have follows := same.sessionsFollow dcc session
          have owner := (apart o (by simp)).1 dcc session
          exact (apart o (by simp)).2 block inFile (address ▸ (follows.symm.trans owner))
      · intro two
        obtain ⟨m,member,hit,inNews⟩ := copyOver_second ran two
        have same := kept o (by simp) _ inNews (by simpa using hit)
        exact ⟨same.channels.symm,same.users.symm⟩

theorem live_state_kept_iff (old : List Network) (blocks : List NetworkBlock) (apart : Apart old blocks) :
    KeepsLive old blocks ↔ Carried old blocks :=
  ⟨keeps_carried apart,carried_keeps⟩

def libera : Network := { newNetwork 1 (some "libera".toList) 7 with users := [20,21], chans := [30], status := 3 }

def liberaAgain : NetworkBlock := ⟨2,some "Libera".toList,[40],[],8⟩

theorem disconnected_kept : KeepsLive [libera] [liberaAgain] := by
  refine (live_state_kept_iff [libera] [liberaAgain] ?_).mpr ?_
  · intro o member
    obtain rfl : o = libera := by simpa using member
    exact ⟨by simp [libera,newNetwork],by simp [liberaAgain,libera,newNetwork]⟩
  · exact ⟨libera,rfl,by simp,rfl,by simp [liberaAgain],by simp [libera,newNetwork],by decide⟩

def connected : Network := { libera with tsock := some ⟨50,1⟩, curServer := some 40, dccs := [⟨60,1⟩] }

theorem running_network_dropped : ¬∀ (old : List Network) (blocks : List NetworkBlock),
    (∀ o ∈ old, o.tsock.isSome) → Apart old blocks → KeepsLive old blocks := by
  intro claim
  obtain ⟨news,ran,kept⟩ := claim [connected] [liberaAgain] (by simp [connected]) (by
    intro o member
    obtain rfl : o = connected := by simpa using member
    exact ⟨by simp [connected,libera,newNetwork],by simp [liberaAgain,connected,libera,newNetwork]⟩)
  obtain rfl : news = [copied connected (configEngineLoad [liberaAgain])[0]] := by
    have done : eggRehash [connected] [liberaAgain] = some [copied connected (configEngineLoad [liberaAgain])[0]] := by
      decide +kernel
    exact Option.some.inj (ran.symm.trans done)
  have socket := (kept connected (by simp) (copied connected (configEngineLoad [liberaAgain])[0]) (by simp) (by decide)).socket
  revert socket
  decide

end Trollbot.Rehash

import Trollbot.DccSessions

-- The lookups of sessions that scripts chain: a handle to an idx, an idx to a handle, a text to an idx.
namespace Trollbot.DccSessions
open DccLogin (DccStatus)

def ready (dtmp : DccSession) : Bool := value .notReady ≤ value dtmp.status

-- The line that goes to the socket; the text is the format.
def ircPrintf (sock : Option Nat) (fmt : Str) : Option (Option Nat × Str) :=
  (formatted fmt).map (fun text => (sock,text.take 2047 ++ ['\n']))

def eggPutdcc (dccs : List DccSession) (idx : Int) (text : Str) : Option (List (Option Nat × Str)) :=
  match dccs.find? (fun dtmp => dtmp.id = idx) with
  | none => some []
  | some dtmp => (ircPrintf dtmp.sock text).map (fun line => [line])

-- None is a user that is not there any more.
def eggHand2idx (users : List User) (handle : Str) : List DccSession → Option Int
  | [] => some 0
  | dtmp :: rest =>
    match ready dtmp,dtmp.user with
    | true,some place => do
      let user ← users[place]?
      if user.username = handle then some dtmp.id else eggHand2idx users handle rest
    | _,_ => eggHand2idx users handle rest

def eggIdx2hand (dccs : List DccSession) (_idx : Int) : Option Nat := (dccs.find? ready).bind (·.user)

def eggValididx (dccs : List DccSession) (idx : Int) : Bool := dccs.any (fun dtmp => decide (dtmp.id = idx) && ready dtmp)

-- What scripts rely on, for a text that is put.
structure Agree (users : List User) (dccs : List DccSession) (text : Str) : Prop where
  named : ∀ dcc ∈ dccs, ready dcc = true → eggIdx2hand dccs dcc.id = dcc.user
  unnamed : ∀ idx, eggValididx dccs idx = false → eggIdx2hand dccs idx = none
  back : ∀ dcc ∈ dccs, dcc.status = .authenticated → ∀ place user, dcc.user = some place → users[place]? = some user →
    ∃ idx, eggHand2idx users user.username dccs = some idx ∧ eggIdx2hand dccs idx = some place
  put : ∀ dcc ∈ dccs, ∃ line, eggPutdcc dccs dcc.id text = some [(dcc.sock,line)]
  unput : ∀ idx, (∀ dcc ∈ dccs, dcc.id ≠ idx) → eggPutdcc dccs idx text = some []

-- The live sessions have ids of their own.
structure Identified (dccs : List DccSession) : Prop where
  distinct : (dccs.map (·.id)).Nodup
  positive : ∀ dcc ∈ dccs, 0 < dcc.id

theorem id_found {dccs : List DccSession} (distinct : (dccs.map (·.id)).Nodup) (member : dcc ∈ dccs) :
    dccs.find? (fun dtmp => dtmp.id = dcc.id) = some dcc := by
  induction dccs with
  | nil => cases member
  | cons first rest ih =>
      obtain ⟨apart,others⟩ := List.nodup_cons.mp distinct
      rcases List.mem_cons.mp member with rfl | later
      · simp
      · have differs : first.id ≠ dcc.id := by
          intro same
          exact apart (List.mem_map.mpr ⟨dcc,later,same.symm⟩)
        rw [List.find?_cons_of_neg (by simpa using differs)]
        exact ih others later

-- The idx is not looked at, and no session has the idx 0: whatever user one session has would be
-- found without a session.
theorem agree_userless (identified : Identified dccs) (agree : Agree users dccs text) : ∀ dcc ∈ dccs, ready dcc = true → dcc.user = none := by
  intro dcc member isReady
  have free : eggValididx dccs 0 = false := by
    rw [eggValididx,List.any_eq_false]
    intro other inside valid
    have positive := identified.positive other inside
    simp only [Bool.and_eq_true,decide_eq_true_eq] at valid
    omega
  have nobody := agree.unnamed 0 free
  rw [← agree.named dcc member isReady]
  exact nobody

theorem lookups_agree (users : List User) (dccs : List DccSession) (text : Str) (identified : Identified dccs) : Agree users dccs text ↔
    (∀ dcc ∈ dccs, ready dcc = true → dcc.user = none) ∧ (dccs = [] ∨ formatted text ≠ none) := by
  constructor
  · intro agree
    refine ⟨agree_userless identified agree,?_⟩
    cases dccs with
    | nil => exact .inl rfl
    | cons dcc rest =>
        refine .inr ?_
        intro refused
        obtain ⟨line,put⟩ := agree.put dcc (by simp)
        rw [eggPutdcc,id_found identified.distinct (by simp)] at put
        simp [ircPrintf,refused] at put
  · rintro ⟨userless,printable⟩
    have nobody : ∀ idx, eggIdx2hand dccs idx = none := by
      intro idx
      unfold eggIdx2hand
      cases found : dccs.find? ready with
      | none => rfl
      | some dcc => exact userless dcc (List.mem_of_find?_eq_some found) (List.find?_some found)
    refine ⟨?_,fun idx _ => nobody idx,?_,?_,?_⟩
    · intro dcc member isReady
      rw [nobody,userless dcc member isReady]
    · intro dcc member authenticated place user has
      have none' := userless dcc member (by simp [ready,authenticated,value])
      rw [has] at none'
      cases none'
    · intro dcc member
      have some' := printable.resolve_left (List.ne_nil_of_mem member)
      obtain ⟨line,made⟩ := Option.ne_none_iff_exists'.mp some'
      exact ⟨_,by rw [eggPutdcc,id_found identified.distinct member]; simp [ircPrintf,made]; rfl⟩
    · intro idx away
      have missing : dccs.find? (fun dtmp => dtmp.id = idx) = none := by
        rw [List.find?_eq_none]
        simpa using away
      rw [eggPutdcc,missing]

def partyline (id : Int) (sock : Nat) (place : Option Nat) : DccSession := ⟨id,some sock,place,.authenticated,0⟩

def annAndBob : List User := [newUser ['a'] none none none none none none,newUser ['b'] none none none none none none]

-- Two sessions on the partyline, neither of them that of a user.
theorem nobody_agrees : Agree annAndBob [partyline 1 5 none,partyline 2 6 none] ['x'] :=
  (lookups_agree annAndBob [partyline 1 5 none,partyline 2 6 none] ['x'] ⟨by decide,by decide⟩).mpr ⟨by decide,by decide⟩

def twoSessions : List DccSession := [partyline 1 5 (some 0),partyline 2 6 (some 1)]

-- The second session's user is taken for the first one's.
theorem second_session_misnamed : Identified twoSessions ∧ ¬Agree annAndBob twoSessions ['x'] := by
  refine ⟨⟨by decide,by decide⟩,?_⟩
  intro agree
  have named := agree.named (partyline 2 6 (some 1)) (by simp [twoSessions]) rfl
  revert named
  decide

end Trollbot.DccSessions

import Trollbot.IrcTrigger

-- The triggers as a table that scripts add to, query and take from.
namespace Trollbot.Bindings
open Irc

section
variable {η : Type}

-- The type names egg_unbind knows.
def unbindType (type : Str) : Option TrigType :=
  [("pub".toList,TrigType.pub),("pubm".toList,.pubm),("msg".toList,.msg),("msgm".toList,.msgm),("notc".toList,.notc),
    ("join".toList,.join),("part".toList,.part),("dcc".toList,.dcc),("topc".toList,.topc),("raw".toList,.raw)].find?
      (fun known => tstrcasecmp known.1 type = 0) |>.map (·.2)

-- The mask exactly, the command up to case, which a built-in trigger does not have.
def unbinds (mask command : Str) (trig : Trigger η) : Option Bool :=
  if mask = trig.mask then trig.command.map (fun own => decide (tstrcasecmp command own = 0)) else some false

def eggUnbind (trigs : TrigTable η) (type _flags mask command : Str) : Option (TrigTable η × Option Str) :=
  match unbindType type with
  | none => some (trigs,none)
  | some kind => do
    match ← findPlace (unbinds mask command) (trigs kind).items with
    | none => some (trigs,none)
    | some place => do
      let trig ← (trigs kind).items[place]?
      some (triggerListDel trigs kind place,some trig.mask)

def countUse (trigs : TrigTable η) (type : TrigType) (place : Nat) : TrigTable η := fun other =>
  if other = type then (trigs other).modify place (fun trig => { trig with usecount := trig.usecount + 1 }) else trigs other

end

-- The numbers stand for the handlers that are not followed.
def defaultTriggers (js tcl : Bool) : List (Trigger Handler) :=
  [builtin .msg ('\x01' :: "VERSION".toList) (.other 0),builtin .msg ('\x01' :: "CHAT".toList) (.other 1),builtin .msg ('\x01' :: "JOIN".toList) (.other 2),
    builtin .msg ('\x01' :: "PING".toList) (.other 3),builtin .msg ('\x01' :: "TIME".toList) (.other 4),builtin .msg ('\x01' :: "DCC CHAT".toList) (.other 5),
    builtin .msg "pass".toList (.other 6),builtin .msg "ident".toList (.other 7),builtin .msg "hello".toList (.other 8),builtin .msg "goodbye".toList (.other 9),
    builtin .topc "*".toList .trollTrigUpdateTopic,builtin .join "*".toList .newJoin,builtin .part "*".toList .newPart,builtin .sign "*".toList .newQuit,
    builtin .kick "*".toList .newKick,builtin .dcc ".help".toList (.other 10),builtin .dcc ".+chan".toList (.other 11),builtin .dcc ".-chan".toList (.other 12),
    builtin .dcc ".tbinds".toList (.other 13),builtin .dcc ".who".toList (.other 14),builtin .dcc ".dump".toList (.other 15),builtin .dcc ".saveall".toList (.other 16),
    builtin .dcc ".rehash".toList (.other 17),builtin .dcc ".chattr".toList (.other 18),builtin .dcc ".console".toList (.other 19)] ++
  (if js then [builtin .dcc ".loadjavascript".toList (.other 20),newTrigger (some "n".toList) .dcc ".js".toList none (some (.other 21))] else []) ++
  (if tcl then [newTrigger (some "n".toList) .dcc ".tcl".toList none (some (.other 22))] else []) ++
  builtin .notc "*QUOTE PASS*".toList (.other 23) :: defaultRaw

def addDefaultTriggers (js tcl : Bool) (trigs : TrigTable Handler) : TrigTable Handler :=
  (defaultTriggers js tcl).foldl (fun trigs trig => triggerListAdd trigs trig.type trig) trigs

-- The tables of a run: the built-in triggers are added, scripts bind and unbind, triggers are used.
inductive Reachable (js tcl : Bool) : TrigTable Handler → Prop where
  | fresh : Reachable js tcl newTrigTable
  | defaults (before : Reachable js tcl trigs) : Reachable js tcl (addDefaultTriggers js tcl trigs)
  | bind (before : Reachable js tcl trigs) (done : eggBind trigs type flags mask cmd handler = some (later,returned)) :
      Reachable js tcl later
  | unbind (before : Reachable js tcl trigs) (done : eggUnbind trigs type flags mask command = some (later,returned)) :
      Reachable js tcl later
  | used (before : Reachable js tcl trigs) : Reachable js tcl (countUse trigs type place)

section
variable {η : Type}

-- The commands bound to a mask.
def commands (mask : Str) (trigs : List (Trigger η)) : List Str :=
  trigs.filterMap (fun trig => if trig.mask = mask then trig.command else none)

def Lists (trigs : TrigTable η) (kind : TrigType) (type flags mask cmd : Str) : Prop :=
  eggBind trigs type flags mask cmd none = some (trigs,some (commands mask (trigs kind).items))

def isBound (mask cmd : Str) (trig : Trigger η) : Bool :=
  decide (trig.mask = mask) && trig.command.any (fun own => decide (tstrcasecmp cmd own = 0))

def Removes (trigs : TrigTable η) (kind : TrigType) (type flags mask cmd : Str) : Prop :=
  ∃ later, eggUnbind trigs type flags mask cmd = some (later,some mask) ∧ (∀ trig ∈ (later kind).items, isBound mask cmd trig = false) ∧
    (later kind).items = (trigs kind).items.filter (fun trig => !isBound mask cmd trig) ∧ ∀ other ≠ kind, later other = trigs other

def hasMask (mask : Str) (trig : Trigger η) : Bool := decide (tstrcasecmp trig.mask mask = 0)

def Replaces (before after : List (Trigger η)) (mask : Str) (new : Trigger η) : Prop :=
  after.filter (fun trig => !hasMask mask trig) = before.filter (fun trig => !hasMask mask trig) ∧ after.filter (hasMask mask) = [new]

-- What the three calls promise together.
def TableLaw (trigs : TrigTable η) (kind : TrigType) (type flags mask cmd : Str) (handler : η) : Prop :=
  ∃ later returned, eggBind trigs type flags mask cmd (some handler) = some (later,returned) ∧ Lists later kind type flags mask cmd ∧
    Removes later kind type flags mask cmd ∧
    (kind = .pub ∨ kind = .msg → Replaces (trigs kind).items (later kind).items mask (newTrigger none kind mask (some cmd) (some handler)))

-- A PUBM that is there already, up to case.
def Refused (trigs : TrigTable η) (kind : TrigType) (mask cmd : Str) : Prop :=
  kind = .pubm ∧ ∃ trig ∈ (trigs .pubm).items, tstrcasecmp trig.mask mask = 0 ∧
    ∃ own, trig.command = some own ∧ tstrcasecmp own cmd = 0

-- What a new trigger is put at the end of.
def base (trigs : TrigTable η) (kind : TrigType) (mask : Str) : Chain (Trigger η) :=
  if kind = .pub ∨ kind = .msg then unstack trigs kind mask kind else trigs kind

theorem unbinds_true : unbinds mask cmd trig = some true ↔ isBound (η := η) mask cmd trig = true := by
  unfold unbinds isBound
  by_cases same : mask = trig.mask
  · cases trig.command <;> simp [same]
  · simp [same,Ne.symm same]

theorem unbinds_false (passed : unbinds (η := η) mask cmd trig = some false) : isBound mask cmd trig = false := by
  cases match' : isBound mask cmd trig with
  | false => rfl
  | true =>
      rw [unbinds_true.mpr match'] at passed
      cases passed

theorem findPlace_some {test : α → Option Bool} {l : List α} : findPlace test l = some (some place) ↔ ∃ front x rest,
    l = front ++ x :: rest ∧ place = front.length ∧ (∀ y ∈ front, test y = some false) ∧ test x = some true := by
  induction l generalizing place with
  | nil => simp [findPlace]
  | cons first more ih =>
      constructor
      · intro found
        simp only [findPlace,Option.bind_eq_bind,Option.bind_eq_some_iff] at found
        obtain ⟨passes,tested,found⟩ := found
        cases passes with
        | true =>
            cases found
            exact ⟨[],first,more,rfl,rfl,by simp,tested⟩
        | false =>
            simp only [Bool.false_eq_true,if_false,Option.map_eq_some_iff] at found
            obtain ⟨later,found,same⟩ := found
            obtain ⟨place',rfl,rfl⟩ := same
            obtain ⟨front,x,rest,rfl,rfl,passed,hit⟩ := ih.mp found
            refine ⟨first :: front,x,rest,rfl,rfl,?_,hit⟩
            intro y member
            rcases List.mem_cons.mp member with rfl | inside
            · exact tested
            · exact passed y inside
      · rintro ⟨front,x,rest,split,rfl,passed,hit⟩
        cases front with
        | nil =>
            cases split
            simp [findPlace,hit]
        | cons y front =>
            cases split
            have later : findPlace test (front ++ x :: rest) = some (some front.length) :=
              ih.mpr ⟨front,x,rest,rfl,rfl,fun z member => passed z (by simp [member]),hit⟩
            simp [findPlace,passed first (by simp),later]

theorem filter_none {trigs : List (Trigger η)} (passed : ∀ trig ∈ trigs, isBound mask cmd trig = false) :
    trigs.filter (fun trig => !isBound mask cmd trig) = trigs := by
  refine List.filter_eq_self.mpr ?_
  intro trig member
  simp [passed trig member]

-- An unbind takes out what it should exactly when it finds the only trigger there is, at a place where
-- the list loses nothing.
theorem removes_exact (known : unbindType type = some kind) : Removes (η := η) trigs kind type flags mask cmd ↔
    ∃ front trig rest, (trigs kind).items = front ++ trig :: rest ∧ (∀ other ∈ front, unbinds mask cmd other = some false) ∧
      isBound mask cmd trig = true ∧ (∀ other ∈ rest, isBound mask cmd other = false) ∧ (trigs kind).Unlinks front.length := by
  unfold Removes eggUnbind
  simp only [known,Option.bind_eq_bind,Option.bind_eq_some_iff]
  constructor
  · rintro ⟨later,⟨found,searched,done⟩,clear,kept,-⟩
    cases found with
    | none => cases done
    | some place =>
        obtain ⟨front,trig,rest,split,rfl,passed,hit⟩ := findPlace_some.mp searched
        simp only [split,List.getElem?_append_right (Nat.le_refl _),Nat.sub_self,List.getElem?_cons_zero,Option.bind_some,
          Option.some.injEq,Prod.mk.injEq] at done
        obtain ⟨rfl,rfl⟩ := done
        have after : (triggerListDel trigs kind front.length kind).items =
            (front.getLast?.or (trigs kind).behind.head?).toList ++ rest := by
          simpa [triggerListDel] using Chain.del_split split
        have others : ∀ other ∈ rest, isBound trig.mask cmd other = false := by
          intro other member
          exact clear other (by rw [after]; exact List.mem_append_right _ member)
        refine ⟨front,trig,rest,split,passed,unbinds_true.mp hit,others,?_⟩
        have early := filter_none (fun other member => unbinds_false (passed other member))
        rw [after,split,List.filter_append,early,List.filter_cons_of_neg (by simp [unbinds_true.mp hit]),filter_none others] at kept
        exact Chain.front_kept.mp (List.append_cancel_right kept)
  · rintro ⟨front,trig,rest,split,passed,hit,others,unlinks⟩
    have same : trig.mask = mask := by
      simp only [isBound,Bool.and_eq_true,decide_eq_true_eq] at hit
      exact hit.1
    have searched := findPlace_some.mpr ⟨front,trig,rest,split,rfl,passed,unbinds_true.mpr hit⟩
    have after : (triggerListDel trigs kind front.length kind).items = front ++ rest := by
      have kept := Chain.del_split split
      rw [Chain.front_kept.mpr unlinks] at kept
      simpa [triggerListDel] using kept
    have early := filter_none (fun other member => unbinds_false (passed other member))
    refine ⟨triggerListDel trigs kind front.length,⟨some front.length,searched,?_⟩,?_,?_,?_⟩
    · simp [split,same]
    · intro other member
      rw [after] at member
      rcases List.mem_append.mp member with inFront | inRest
      · exact unbinds_false (passed other inFront)
      · exact others other inRest
    · rw [after,split,List.filter_append,early,List.filter_cons_of_neg (by simp [hit]),filter_none others]
    · intro other differ
      exact del_other trigs _ differ

theorem removes_unknown (unknown : unbindType type = none) : ¬Removes (η := η) trigs kind type flags mask cmd := by
  rintro ⟨later,done,-⟩
  simp [eggUnbind,unknown] at done

theorem alreadyBound_told {trigs : List (Trigger η)} (mask cmd : Str) (commanded : ∀ trig ∈ trigs, trig.command ≠ none) :
    alreadyBound mask cmd trigs = some (decide (∃ trig ∈ trigs, tstrcasecmp trig.mask mask = 0 ∧
      ∃ own, trig.command = some own ∧ tstrcasecmp own cmd = 0)) := by
  induction trigs with
  | nil => simp [alreadyBound]
  | cons trig rest ih =>
      obtain ⟨own,has⟩ := Option.ne_none_iff_exists'.mp (commanded trig (by simp))
      have later := ih (fun other member => commanded other (by simp [member]))
      simp only [alreadyBound,has,later,Option.bind_eq_bind,Option.bind_some,List.exists_mem_cons_iff]
      simp only [tstrcasecmp_iff]
      by_cases masks : fold trig.mask = fold mask
      · by_cases commands : fold own = fold cmd
        · simp [masks,commands]
        · simp [masks,commands]
      · simp [masks]

-- A bind adds the new trigger, or nothing where it is refused.
theorem bind_adds {trigs : TrigTable η} (commanded : ∀ trig ∈ (trigs .pubm).items, trig.command ≠ none) (accepted : bindType type = some kind)
    (flags mask cmd : Str) (handler : η) :
    ∃ later returned, eggBind trigs type flags mask cmd (some handler) = some (later,returned) ∧
      (Refused trigs kind mask cmd → later = trigs) ∧
      (¬Refused trigs kind mask cmd → later kind = (base trigs kind mask).add (newTrigger none kind mask (some cmd) (some handler))) := by
  have told := alreadyBound_told mask cmd commanded
  by_cases pubm : kind = .pubm
  · subst pubm
    by_cases refused : Refused trigs .pubm mask cmd
    · refine ⟨trigs,none,?_,fun _ => rfl,fun free => absurd refused free⟩
      simp only [eggBind,accepted,told,refused.2,decide_true,Option.bind_eq_bind,Option.bind_some,if_true]
    · have free : ¬∃ trig ∈ (trigs .pubm).items, tstrcasecmp trig.mask mask = 0 ∧
          ∃ own, trig.command = some own ∧ tstrcasecmp own cmd = 0 := fun there => refused ⟨rfl,there⟩
      refine ⟨triggerListAdd trigs .pubm (newTrigger none .pubm mask (some cmd) (some handler)),some [cmd],?_,
        fun there => absurd there refused,fun _ => ?_⟩
      · simp only [eggBind,accepted,told,free,decide_false,Option.bind_eq_bind,Option.bind_some,Bool.false_eq_true,if_false]
      · simp [triggerListAdd,base]
  · refine ⟨triggerListAdd (if kind = .pub ∨ kind = .msg then unstack trigs kind mask else trigs) kind
      (newTrigger none kind mask (some cmd) (some handler)),some [cmd],?_,fun refused => absurd refused.1 pubm,fun _ => ?_⟩
    · cases kind <;> simp_all [eggBind]
    · by_cases alone : kind = .pub ∨ kind = .msg
      · simp only [triggerListAdd,base,if_pos alone,if_true]
      · simp only [triggerListAdd,base,if_neg alone,if_true]

theorem add_unlinks (c : Chain α) (x : α) : (c.add x).Unlinks c.items.length ↔ c.items.length ≤ 1 := by
  unfold Chain.Unlinks Chain.add
  cases items : c.items with
  | nil => simp
  | cons first rest => cases rest <;> simp

theorem isBound_new (kind : TrigType) (mask cmd : Str) (handler : η) : isBound mask cmd (newTrigger none kind mask (some cmd) (some handler)) = true := by
  simp [isBound,newTrigger]

theorem removes_added {trigs : TrigTable η} (known : unbindType type = some kind)
    (added : trigs kind = Chain.add c (newTrigger none kind mask (some cmd) (some handler))) :
    Removes trigs kind type flags mask cmd ↔ c.items.length ≤ 1 ∧ ∀ trig ∈ c.items, unbinds mask cmd trig = some false := by
  rw [removes_exact known,added,Chain.add_items]
  constructor
  · rintro ⟨front,trig,rest,split,passed,hit,others,unlinks⟩
    have last : rest = [] := by
      rcases List.eq_nil_or_concat rest with empty | ⟨early,final,rfl⟩
      · exact empty
      · have split' : c.items ++ [newTrigger none kind mask (some cmd) (some handler)] = (front ++ trig :: early) ++ [final] := by
          simpa using split
        obtain ⟨-,same⟩ := List.append_inj' split' rfl
        have new := isBound_new kind mask cmd handler
        rw [List.singleton_inj.mp same,others final (by simp)] at new
        cases new
    subst last
    obtain ⟨same,-⟩ := List.append_inj' split rfl
    subst same
    exact ⟨(add_unlinks c _).mp unlinks,passed⟩
  · rintro ⟨short,passed⟩
    exact ⟨c.items,_,[],rfl,passed,isBound_new kind mask cmd handler,by simp,(add_unlinks c _).mpr short⟩

theorem findIdx_split {p : α → Bool} {l : List α} (found : l.findIdx? p = some place) :
    ∃ front x rest, l = front ++ x :: rest ∧ place = front.length ∧ (∀ y ∈ front, p y = false) ∧ p x = true := by
  obtain ⟨inside,here,early⟩ := List.findIdx?_eq_some_iff_getElem.mp found
  refine ⟨l.take place,l[place],l.drop (place + 1),?_,?_,?_,here⟩
  · rw [List.getElem_cons_drop,List.take_append_drop]
  · rw [List.length_take]
    omega
  · intro y member
    obtain ⟨i,short,rfl⟩ := List.getElem_of_mem member
    rw [List.length_take] at short
    rw [List.getElem_take]
    simpa using early i (by omega)

-- Where a mask has its one trigger, and a bind may take it out.
def Alone (c : Chain (Trigger η)) (mask : Str) : Prop :=
  ∃ front trig rest, c.items = front ++ trig :: rest ∧ hasMask mask trig = true ∧
    (∀ other ∈ front ++ rest, hasMask mask other = false) ∧ c.Unlinks front.length

theorem filter_others {trigs : List (Trigger η)} (others : ∀ trig ∈ trigs, hasMask mask trig = false) :
    trigs.filter (fun trig => !hasMask mask trig) = trigs ∧ trigs.filter (hasMask mask) = [] := by
  refine ⟨List.filter_eq_self.mpr ?_,List.filter_eq_nil_iff.mpr ?_⟩
  · intro trig member
    simp [others trig member]
  · intro trig member
    simp [others trig member]

theorem unstack_none {trigs : TrigTable η} (others : ∀ trig ∈ (trigs kind).items, hasMask mask trig = false) :
    unstack trigs kind mask kind = trigs kind := by
  have found : (trigs kind).items.findIdx? (fun trigger => decide (tstrcasecmp trigger.mask mask = 0)) = none :=
    List.findIdx?_eq_none_iff.mpr others
  simp only [unstack,found]

theorem unstack_split {trigs : TrigTable η} (split : (trigs kind).items = front ++ trig :: rest)
    (early : ∀ other ∈ front, hasMask mask other = false) (hit : hasMask mask trig = true) :
    (unstack trigs kind mask kind).items = (front.getLast?.or (trigs kind).behind.head?).toList ++ rest := by
  have passed : front.findIdx? (fun trigger => decide (tstrcasecmp trigger.mask mask = 0)) = none :=
    List.findIdx?_eq_none_iff.mpr early
  have here : decide (tstrcasecmp trig.mask mask = 0) = true := hit
  have found : (trigs kind).items.findIdx? (fun trigger => decide (tstrcasecmp trigger.mask mask = 0)) = some front.length := by
    simp only [split,List.findIdx?_append,passed,List.findIdx?_cons,here,if_true,Option.none_or,Option.map_some,Nat.zero_add]
  simp only [unstack,found,triggerListDel,if_true]
  exact Chain.del_split split

-- A bind takes the place of what was bound to the mask exactly when the mask has no trigger, or one.
theorem replaces_exact {trigs : TrigTable η} (new : hasMask mask trig = true) :
    Replaces (trigs kind).items ((unstack trigs kind mask kind).items ++ [trig]) mask trig ↔
      (∀ other ∈ (trigs kind).items, hasMask mask other = false) ∨ Alone (trigs kind) mask := by
  have last : [trig].filter (hasMask mask) = [trig] := by simp [new]
  have gone : [trig].filter (fun other => !hasMask mask other) = [] := by simp [new]
  unfold Replaces
  rw [List.filter_append,List.filter_append,last,gone,List.append_nil]
  constructor
  · rintro ⟨kept,replaced⟩
    cases found : (trigs kind).items.findIdx? (hasMask mask) with
    | none => exact .inl (List.findIdx?_eq_none_iff.mp found)
    | some place =>
        obtain ⟨front,old,rest,split,rfl,early,hit⟩ := findIdx_split found
        rw [unstack_split split early hit] at kept replaced
        have clear : ∀ other ∈ (front.getLast?.or (trigs kind).behind.head?).toList ++ rest, hasMask mask other = false := by
          intro other member
          have none' := List.filter_eq_nil_iff.mp (List.append_cancel_right (replaced.trans (List.nil_append [trig]).symm)) other member
          simpa using none'
        have others : ∀ other ∈ rest, hasMask mask other = false := fun other member => clear other (List.mem_append_right _ member)
        rw [(filter_others clear).1,split,List.filter_append,(filter_others early).1,List.filter_cons_of_neg (by simp [hit]),
          (filter_others others).1] at kept
        refine .inr ⟨front,old,rest,split,hit,?_,Chain.front_kept.mp (List.append_cancel_right kept)⟩
        intro other member
        rcases List.mem_append.mp member with inFront | inRest
        · exact early other inFront
        · exact others other inRest
  · rintro (none' | ⟨front,old,rest,split,hit,others,unlinks⟩)
    · rw [unstack_none none',(filter_others none').2]
      exact ⟨rfl,rfl⟩
    · have early : ∀ other ∈ front, hasMask mask other = false := fun other member => others other (List.mem_append_left _ member)
      have late : ∀ other ∈ rest, hasMask mask other = false := fun other member => others other (List.mem_append_right _ member)
      rw [unstack_split split early hit,Chain.front_kept.mpr unlinks,split,(filter_others others).1,(filter_others others).2,
        List.filter_append,(filter_others early).1,List.filter_cons_of_neg (by simp [hit]),(filter_others late).1]
      exact ⟨rfl,rfl⟩

theorem bind_pubm {trigs : TrigTable η} (done : eggBind trigs type flags mask cmd handler = some (later,returned)) :
    later .pubm = trigs .pubm ∨ later .pubm = (trigs .pubm).add (newTrigger none .pubm mask (some cmd) handler) := by
  unfold eggBind at done
  cases handler with
  | none =>
      cases done
      exact .inl rfl
  | some handler =>
      cases kind : bindType type with
      | none =>
          simp only [kind,Option.some.injEq,Prod.mk.injEq] at done
          exact .inl (by rw [done.1])
      | some kind' =>
          simp only [kind] at done
          split at done
          · cases Option.some.inj done
            exact .inl (by rw [add_other _ _ (by simp),unstack_other (by simp)])
          · cases Option.some.inj done
            exact .inl (by rw [add_other _ _ (by simp),unstack_other (by simp)])
          · simp only [Option.bind_eq_bind,Option.bind_eq_some_iff] at done
            obtain ⟨old,-,done⟩ := done
            split at done
            · cases Option.some.inj done
              exact .inl rfl
            · cases Option.some.inj done
              exact .inr (by simp [triggerListAdd])
          · rename_i others
            cases Option.some.inj done
            exact .inl (add_other _ _ (Ne.symm others))

theorem unbind_chain {trigs : TrigTable η} (done : eggUnbind trigs type flags mask cmd = some (later,returned)) (kind : TrigType) :
    later kind = trigs kind ∨ ∃ place, later kind = (trigs kind).del place := by
  unfold eggUnbind at done
  cases known : unbindType type with
  | none =>
      simp only [known,Option.some.injEq,Prod.mk.injEq] at done
      exact .inl (by rw [done.1])
  | some kind' =>
      simp only [known,Option.bind_eq_bind,Option.bind_eq_some_iff] at done
      obtain ⟨found,-,done⟩ := done
      cases found with
      | none =>
          cases Option.some.inj done
          exact .inl rfl
      | some place =>
          obtain ⟨trig,-,done⟩ := Option.bind_eq_some_iff.mp done
          cases Option.some.inj done
          by_cases same : kind = kind'
          · exact .inr ⟨place,by simp [triggerListDel,same]⟩
          · exact .inl (del_other trigs place same)

-- A query finds nothing, whatever is bound.
theorem lists_exact {trigs : TrigTable η} : Lists trigs kind type flags mask cmd ↔ commands mask (trigs kind).items = [] := by
  simp only [Lists,eggBind,Option.some.injEq,Prod.mk.injEq,true_and]
  exact eq_comm

end

theorem default_commands (js tcl : Bool) : ∀ trig ∈ defaultTriggers js tcl, trig.type ≠ .pubm := by
  cases js <;> cases tcl <;> decide

-- Every PUBM of a reachable table has its command.
theorem pubm_commanded (reachable : Reachable js tcl trigs) : ∀ trig ∈ (trigs .pubm).whole, trig.command ≠ none := by
  induction reachable with
  | fresh => simp [newTrigTable,Chain.whole,Chain.empty]
  | defaults before ih =>
      rename_i trigs
      have untouched : ∀ (added : List (Trigger Handler)) (start : TrigTable Handler), (∀ trig ∈ added, trig.type ≠ .pubm) →
          added.foldl (fun trigs trig => triggerListAdd trigs trig.type trig) start .pubm = start .pubm := by
        intro added
        induction added with
        | nil => simp
        | cons trig rest next =>
            intro start types
            rw [List.foldl_cons,next _ (fun other member => types other (by simp [member]))]
            exact add_other _ _ (Ne.symm (types trig (by simp)))
      intro trig member
      unfold addDefaultTriggers at member
      rw [untouched _ _ (default_commands js tcl)] at member
      exact ih trig member
  | bind before done ih =>
      intro trig member
      rcases bind_pubm done with same | added
      · exact ih trig (same ▸ member)
      · rw [added] at member
        rcases Chain.mem_add member with old | rfl
        · exact ih trig old
        · simp [newTrigger]
  | unbind before done ih =>
      intro trig member
      rcases unbind_chain done .pubm with same | ⟨place,taken⟩
      · exact ih trig (same ▸ member)
      · exact ih trig (Chain.mem_del place (taken ▸ member))
  | used before ih =>
      intro trig member
      unfold countUse at member
      split at member
      · rcases Chain.mem_modify _ member with old | ⟨old,inside,rfl⟩
        · exact ih trig old
        · exact ih old inside
      · exact ih trig member

theorem unbindType_fold (same : fold type = fold other) : unbindType type = unbindType other := by
  simp only [unbindType,tstrcasecmp_iff,same]

-- The types that can be bound and not unbound are SIGN and CTCP.
theorem unbind_known (accepted : bindType type = some kind) :
    unbindType type = if kind = .sign ∨ kind = .ctcp then none else some kind := by
  obtain ⟨known,found,is⟩ := Option.map_eq_some_iff.mp accepted
  have hit := List.find?_some found
  simp only [decide_eq_true_eq,tstrcasecmp_iff] at hit
  have named : fold type = fold known.1 := hit.symm
  have listed := List.mem_of_find?_eq_some found
  rw [unbindType_fold named,← is]
  simp only [List.mem_cons,List.not_mem_nil,or_false] at listed
  rcases listed with rfl | rfl | rfl | rfl | rfl | rfl | rfl | rfl | rfl | rfl | rfl | rfl <;> decide

theorem removes_bound {trigs later : TrigTable Handler} (accepted : bindType type = some kind)
    (added : later kind = (base trigs kind mask).add (newTrigger none kind mask (some cmd) (some handler))) :
    Removes later kind type flags mask cmd ↔ (kind ≠ .sign ∧ kind ≠ .ctcp) ∧ (base trigs kind mask).items.length ≤ 1 ∧
      ∀ trig ∈ (base trigs kind mask).items, unbinds mask cmd trig = some false := by
  have known := unbind_known accepted
  by_cases lacks : kind = .sign ∨ kind = .ctcp
  · rw [if_pos lacks] at known
    refine iff_of_false (removes_unknown known) ?_
    rintro ⟨⟨notSign,notCtcp⟩,-⟩
    rcases lacks with sign | ctcp
    · exact notSign sign
    · exact notCtcp ctcp
  · rw [if_neg lacks] at known
    rw [removes_added known added]
    exact ⟨fun removes => ⟨not_or.mp lacks,removes⟩,fun removes => removes.2⟩

-- The law as a whole, and when each part of it holds.
theorem bindings_fail (reachable : Reachable js tcl trigs) (accepted : bindType type = some kind) (flags mask cmd : Str) (handler : Handler) :
    ¬TableLaw trigs kind type flags mask cmd handler ∧
    ∃ later returned, eggBind trigs type flags mask cmd (some handler) = some (later,returned) ∧
      (Lists later kind type flags mask cmd ↔ Refused trigs kind mask cmd ∧ ∀ trig ∈ (trigs .pubm).items, trig.mask ≠ mask) ∧
      (¬Refused trigs kind mask cmd → (Removes later kind type flags mask cmd ↔ (kind ≠ .sign ∧ kind ≠ .ctcp) ∧
        (base trigs kind mask).items.length ≤ 1 ∧ ∀ trig ∈ (base trigs kind mask).items, unbinds mask cmd trig = some false)) ∧
      (kind = .pub ∨ kind = .msg → (Replaces (trigs kind).items (later kind).items mask (newTrigger none kind mask (some cmd) (some handler)) ↔
        (∀ trig ∈ (trigs kind).items, hasMask mask trig = false) ∨ Alone (trigs kind) mask)) := by
  have commanded : ∀ trig ∈ (trigs .pubm).items, trig.command ≠ none :=
    fun trig member => pubm_commanded reachable trig (List.mem_append_right _ member)
  obtain ⟨later,returned,done,same,added⟩ := bind_adds commanded accepted flags mask cmd handler
  have listing : Lists later kind type flags mask cmd ↔
      Refused trigs kind mask cmd ∧ ∀ trig ∈ (trigs .pubm).items, trig.mask ≠ mask := by
    rw [lists_exact]
    by_cases refused : Refused trigs kind mask cmd
    · rw [same refused,refused.1,commands,List.filterMap_eq_nil_iff]
      constructor
      · intro silent
        refine ⟨⟨rfl,refused.2⟩,?_⟩
        intro trig member is
        have none' := silent trig member
        rw [if_pos is] at none'
        exact commanded trig member none'
      · rintro ⟨-,others⟩ trig member
        exact if_neg (others trig member)
    · refine iff_of_false ?_ (fun there => refused there.1)
      rw [added refused,Chain.add_items,commands,List.filterMap_append]
      simp [newTrigger]
  refine ⟨?_,later,returned,done,listing,fun free => removes_bound accepted (added free),?_⟩
  · rintro ⟨later',returned',again,lists,removes,-⟩
    rw [done] at again
    cases again
    obtain ⟨refused,others⟩ := listing.mp lists
    have is := refused.1
    subst is
    have known := unbind_known accepted
    rw [if_neg (by decide)] at known
    rw [same refused] at removes
    obtain ⟨front,trig,rest,split,-,hit,-⟩ := (removes_exact known).mp removes
    simp only [isBound,Bool.and_eq_true,decide_eq_true_eq] at hit
    exact others trig (by simp [split]) hit.1
  · intro alone
    have free : ¬Refused trigs kind mask cmd := by
      rintro ⟨rfl,-⟩
      rcases alone with pub | msg
      · cases pub
      · cases msg
    have new : hasMask mask (newTrigger none kind mask (some cmd) (some handler)) = true := by simp [hasMask,newTrigger]
    rw [added free,Chain.add_items,base,if_pos alone]
    exact replaces_exact new

def startTriggers : TrigTable Handler := addDefaultTriggers true true newTrigTable

theorem script_bind_fails : ¬TableLaw startTriggers .pub "pub".toList "-".toList "!hi".toList "greet".toList (.other 30) :=
  (bindings_fail (.defaults .fresh : Reachable true true startTriggers) (by decide) "-".toList "!hi".toList "greet".toList (.other 30)).1

-- A new PUB is not listed.
theorem new_bind_unlisted : Reachable true true startTriggers ∧ bindType "pub".toList = some .pub ∧ (startTriggers .pub).items = [] ∧
    ∃ later, eggBind startTriggers "pub".toList "-".toList "!hi".toList "greet".toList (some (.other 30)) = some (later,some ["greet".toList]) ∧
      commands "!hi".toList (later .pub).items = ["greet".toList] ∧
      eggBind later "pub".toList "-".toList "!hi".toList "greet".toList none = some (later,some []) ∧
      ¬TableLaw startTriggers .pub "pub".toList "-".toList "!hi".toList "greet".toList (.other 30) := by
  refine ⟨.defaults .fresh,by decide,by decide,_,rfl,by decide,rfl,?_⟩
  rintro ⟨later,returned,done,lists,-⟩
  cases done
  exact absurd (lists_exact.mp lists) (by decide)

end Trollbot.Bindings

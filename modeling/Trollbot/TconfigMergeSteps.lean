import Trollbot.Foundation.Growth
import Trollbot.TconfigMerge
import Trollbot.TconfigRoundTrip

-- What one step of a merge does, whatever trees it has to do with.
namespace Trollbot.Tconfig
open CBuffer Linked Machine

def MergeState.heap : MergeState → Heap Entry
  | .loop heap _ _ _ _ => heap
  | .wild heap _ _ _ _ _ => heap
  | .climb heap _ _ _ _ => heap

-- The blocks of src and of dst that the state points to.
def MergeState.sources : MergeState → List Nat
  | .loop _ src _ _ calls => src.toList ++ calls.map (·.src)
  | .wild _ src _ _ _ calls => src :: calls.map (·.src)
  | .climb _ src _ _ calls => src :: calls.map (·.src)

def MergeState.targets : MergeState → List Nat
  | .loop _ _ dst _ calls => dst.toList ++ calls.flatMap (fun call => [call.dst,call.tmp])
  | .wild _ _ dst tmp _ calls => dst :: (tmp.toList ++ calls.flatMap (fun call => [call.dst,call.tmp]))
  | .climb _ _ dst _ calls => dst.toList ++ calls.flatMap (fun call => [call.dst,call.tmp])

def HasKey (e : Entry) : Prop := e.key ≠ none

-- The search on the level of dst finds nothing.
def Misses (h : Heap Entry) (dst : Nat) (found : Entry → Bool) : Prop :=
  ∃ first passed, rewind h dst = some first ∧ walkOn h found h.length (some first) none = some (none,passed)

-- Where `place` comes to: the block takes the entry if it has no key, else the entry comes behind it.
def goal (h : Heap Entry) (dst : Nat) : Option Nat := walkEnd h (fun other => other.key.isSome) h.length dst

-- At this state an entry of src that the level of dst has not got comes to the block `q`: a leaf, or
-- a block with children.
inductive Adds : MergeState → Bool → Nat → Prop where
  | leaf : cell heap src = some ⟨⟨some key,some value⟩,prev,next,parent,none⟩ →
      Misses heap dst (fun e => sameKey key e && key.head? != some '@') → goal heap dst = some q →
      Adds (.loop heap (some src) (some dst) depth calls) false q
  | block : cell heap src = some ⟨⟨some key,some value⟩,prev,next,parent,some child⟩ → value ≠ ['*'] →
      Misses heap dst (sameEntry key value) → goal heap dst = some q →
      Adds (.loop heap (some src) (some dst) depth calls) true q

-- It takes the place of a block without a key.
def Fills (st : MergeState) (q : Nat) : Prop :=
  ∃ whole n, Adds st whole q ∧ cell st.heap q = some n ∧ n.label.key = none

-- dst->parent = NULL is carried out for a block that has a parent.
def Severs (st : MergeState) : Prop := ∃ q n, Adds st true q ∧ cell st.heap q = some n ∧ n.label.key = none ∧ n.parent ≠ none

-- dst->next = NULL cuts off siblings, or a new child list takes the place of another one.
def Cuts (st : MergeState) : Prop :=
  ∃ q n, cell st.heap q = some n ∧ n.label.key = none ∧ ((Adds st false q ∧ n.next ≠ none) ∨ (Adds st true q ∧ n.child ≠ none))

-- The pointers went along links.
structure GoesAlong (st later : MergeState) : Prop where
  heap : later.heap = st.heap
  sources : ∀ own, Closed own st.heap → (∀ p ∈ st.sources, own p) → ∀ p ∈ later.sources, own p
  targets : ∀ own, Closed own st.heap → (∀ q ∈ st.targets, own q) → ∀ q ∈ later.targets, own q

-- What a step does: nothing to the blocks, a leaf, a block with a blank child, or only the blank child.
inductive Does : MergeState → MergeState → Prop where
  | goes : GoesAlong st later → Does st later
  | leaf : Adds (.loop heap (some src) (some dst) depth calls) false q → addLeaf heap dst key value = some (later,r) →
      Does (.loop heap (some src) (some dst) depth calls) (.climb later src (some r) depth calls)
  | block : Adds (.loop heap (some src) (some dst) depth calls) true q → addBlock heap dst key value = some (later,c) →
      cell heap src = some s → s.child = some child →
      Does (.loop heap (some src) (some dst) depth calls) (.loop later (some child) (some c) (depth + 1) calls)
  | opens : cell heap src = some s → cell heap tmp = some n → HasKey n.label → n.child = none →
      Does (.wild heap src dst (some tmp) depth calls)
        (.loop (store (alloc heap ⟨.blank,none,none,some tmp,none⟩) tmp { n with child := some heap.length }) s.child (some heap.length) 0
          (⟨src,dst,tmp,depth⟩ :: calls))

theorem returned_goes (heap : st.heap = h) (sources : ∀ call ∈ calls, call.src ∈ st.sources)
    (targets : ∀ call ∈ calls, call.dst ∈ st.targets ∧ call.tmp ∈ st.targets) (back : returned h calls = .next later) : GoesAlong st later := by
  subst heap
  cases calls with
  | nil => cases back
  | cons call calls =>
      simp only [returned] at back
      split at back
      · cases back
      · rename_i n here
        cases back
        obtain ⟨mineDst,mineTmp⟩ := targets call (by simp)
        refine ⟨rfl,?_,?_⟩
        · intro own _ mine p member
          simp only [MergeState.sources,List.mem_cons,List.mem_map] at member
          rcases member with rfl | ⟨other,inside,rfl⟩
          · exact mine _ (sources call (by simp))
          · exact mine _ (sources other (by simp [inside]))
        · intro own closed mine q member
          simp only [MergeState.targets,List.mem_cons,List.mem_append,List.mem_flatMap,Option.mem_toList,List.not_mem_nil,or_false] at member
          rcases member with rfl | next | ⟨other,inside,rfl | rfl⟩
          · exact mine _ mineDst
          · exact closed _ n (mine _ mineTmp) here q (.inr (.inl next))
          · exact mine _ (targets other (by simp [inside])).1
          · exact mine _ (targets other (by simp [inside])).2

theorem returned_done (back : returned h calls = .done result) : result = h := by
  cases calls with
  | nil =>
      cases back
      rfl
  | cons call calls =>
      simp only [returned] at back
      split at back
      · cases back
      · cases back

theorem call_sources {calls : List Call} : ∀ call ∈ calls, call.src ∈ calls.map (·.src) := fun _ member => List.mem_map_of_mem member

theorem call_targets {calls : List Call} : ∀ call ∈ calls, call.dst ∈ calls.flatMap (fun call => [call.dst,call.tmp]) ∧
    call.tmp ∈ calls.flatMap (fun call => [call.dst,call.tmp]) :=
  fun call member => ⟨List.mem_flatMap.mpr ⟨call,member,by simp⟩,List.mem_flatMap.mpr ⟨call,member,by simp⟩⟩

-- What `place` writes at the block it comes to.
theorem place_writes (placed : place h dst e = some (middle,d)) : ∃ q n, goal h dst = some q ∧ cell h q = some n ∧
    ((n.label.key = none ∧ d = q ∧ middle = store h q { n with label := e }) ∨
      (HasKey n.label ∧ n.next = none ∧ d = h.length ∧
        middle = store (alloc h ⟨e,some q,none,none,none⟩) q { n with next := some h.length })) := by
  obtain ⟨q,walked,placed⟩ := Option.bind_eq_some_iff.mp placed
  obtain ⟨n,here,placed⟩ := Option.bind_eq_some_iff.mp placed
  have open' : Closed (fun _ => True) h := fun _ _ _ _ _ _ => trivial
  refine ⟨q,n,walked,here,?_⟩
  cases key : n.label.key with
  | none =>
      simp only [key,Option.some.injEq,Prod.mk.injEq] at placed
      exact .inl ⟨rfl,placed.2.symm,placed.1.symm⟩
  | some k =>
      simp only [key,Option.some.injEq,Prod.mk.injEq] at placed
      obtain ⟨-,n',here',stopped⟩ := closed_walkEnd open' trivial walked
      obtain rfl := Option.some.inj (here.symm.trans here')
      refine .inr ⟨by simp [HasKey,key],?_,placed.2.symm,placed.1.symm⟩
      rcases stopped with last | blank
      · exact last
      · simp [key] at blank

theorem loop_does (taken : mergeStep (.loop h (some src) (some dst) depth calls) = .next later) :
    Does (.loop h (some src) (some dst) depth calls) later := by
  -- the state goes on in the same heap, to a block of src and one of dst that links lead to
  have onward : ∀ (src' dst' : Option Nat) (depth' : Nat), (∀ own, Closed own h → own src → ∀ p, src' = some p → own p) →
      (∀ own, Closed own h → own dst → ∀ q, dst' = some q → own q) →
      GoesAlong (.loop h (some src) (some dst) depth calls) (.loop h src' dst' depth' calls) := by
    intro src' dst' depth' leads leads'
    refine ⟨rfl,?_,?_⟩
    · intro own closed mine p member
      rcases List.mem_append.mp member with here | outer
      · exact leads own closed (mine src (by simp [MergeState.sources])) p (by simpa using here)
      · exact mine p (List.mem_append_right _ outer)
    · intro own closed mine q member
      rcases List.mem_append.mp member with here | outer
      · exact leads' own closed (mine dst (by simp [MergeState.targets])) q (by simpa using here)
      · exact mine q (List.mem_append_right _ outer)
  simp only [mergeStep] at taken
  split at taken
  · rename_i s d here same
    cases same
    obtain ⟨⟨key',value'⟩,prev,next,parent,child'⟩ := s
    split at taken
    · rename_i key value first keyed valued back
      simp only at keyed valued
      subst keyed valued
      split at taken
      · rename_i child down
        simp only at down
        subst down
        split at taken
        · cases taken
          refine .goes ⟨rfl,fun own _ mine => mine,?_⟩
          intro own closed mine q member
          have mineDst := mine dst (by simp [MergeState.targets])
          simp only [MergeState.targets,Option.toList_some,List.singleton_append,List.mem_cons] at member
          rcases member with rfl | rfl | outer
          · exact mineDst
          · exact closed_walkBack closed mineDst back
          · exact mine q (by simp [MergeState.targets,outer])
        · rename_i plain
          split at taken
          · cases taken
          · rename_i t passed search
            split at taken
            · cases taken
            · rename_i n live
              cases taken
              refine .goes (onward _ _ _ ?_ ?_)
              · rintro own closed mine p ⟨⟩
                exact closed src _ mine here child (.inr (.inr (.inr rfl)))
              · intro own closed mine q below
                have mineT : own t := closed_walkOn closed (by rintro r ⟨⟩; exact closed_walkBack closed mine back) search
                exact closed t n mineT live q (.inr (.inr (.inr below)))
          · rename_i passed search
            split at taken
            · cases taken
            · rename_i opened c added
              cases taken
              obtain ⟨⟨middle,d⟩,placed,-⟩ := Option.bind_eq_some_iff.mp added
              obtain ⟨q,n,goes,-⟩ := place_writes placed
              exact .block (.block here plain ⟨first,passed,back,search⟩ goes) added here rfl
      · rename_i down
        simp only at down
        subst down
        split at taken
        · cases taken
        · cases taken
          exact .goes ⟨rfl,fun own _ mine => mine,fun own _ mine => mine⟩
        · rename_i passed search
          split at taken
          · cases taken
          · rename_i filled r added
            cases taken
            obtain ⟨⟨middle,d⟩,placed,-⟩ := Option.bind_eq_some_iff.mp added
            obtain ⟨q,n,goes,-⟩ := place_writes placed
            exact .leaf (.leaf here ⟨first,passed,back,search⟩ goes) added
    · cases taken
  · cases taken

theorem wild_does (taken : mergeStep (.wild h src dst tmp depth calls) = .next later) : Does (.wild h src dst tmp depth calls) later := by
  simp only [mergeStep] at taken
  split at taken
  · cases taken
  · rename_i s hereSrc
    cases tmp with
    | none =>
        cases taken
        refine .goes ⟨rfl,?_,fun own _ mine => mine⟩
        intro own closed mine p member
        simp only [MergeState.sources,List.mem_append,Option.mem_toList] at member
        rcases member with next | outer
        · exact closed src s (mine src (by simp [MergeState.sources])) hereSrc p (.inr (.inl next))
        · exact mine p (List.mem_cons_of_mem _ outer)
    | some t =>
        simp only at taken
        split at taken
        · cases taken
        · rename_i n here
          -- past the block of dst
          have past : GoesAlong (.wild h src dst (some t) depth calls) (.wild h src dst n.next depth calls) := by
            refine ⟨rfl,fun own _ mine => mine,?_⟩
            intro own closed mine q member
            simp only [MergeState.targets,List.mem_cons,List.mem_append,Option.mem_toList] at member
            rcases member with rfl | next | outer
            · exact mine _ (by simp [MergeState.targets])
            · exact closed t n (mine t (by simp [MergeState.targets])) here q (.inr (.inl next))
            · exact mine q (by simp [MergeState.targets,outer])
          split at taken
          · cases taken
            exact .goes past
          · rename_i k key
            split at taken
            · split at taken
              · rename_i noChild
                cases taken
                exact .opens hereSrc here (by simp [HasKey,key]) noChild
              · rename_i child down
                cases taken
                refine .goes ⟨rfl,?_,?_⟩
                · intro own closed mine p member
                  have mineSrc := mine src (by simp [MergeState.sources])
                  simp only [MergeState.sources,List.map_cons,List.mem_append,List.mem_cons,Option.mem_toList] at member
                  rcases member with below | rfl | outer
                  · exact closed src s mineSrc hereSrc p (.inr (.inr (.inr below)))
                  · exact mineSrc
                  · exact mine p (List.mem_cons_of_mem _ outer)
                · intro own closed mine q member
                  have mineTmp := mine t (by simp [MergeState.targets])
                  simp only [MergeState.targets,Option.toList_some,List.flatMap_cons,List.cons_append,List.nil_append,
                    List.mem_cons] at member
                  rcases member with rfl | rfl | rfl | outer
                  · exact closed t n mineTmp here _ (.inr (.inr (.inr down)))
                  · exact mine _ (by simp [MergeState.targets])
                  · exact mineTmp
                  · exact mine q (by simp [MergeState.targets,outer])
            · cases taken
              exact .goes past

theorem climb_does (taken : mergeStep (.climb h src dst depth calls) = .next later) : Does (.climb h src dst depth calls) later := by
  simp only [mergeStep] at taken
  split at taken
  · cases taken
  · rename_i s hereSrc
    split at taken
    · rename_i next onward
      cases taken
      refine .goes ⟨rfl,?_,fun own _ mine => mine⟩
      intro own closed mine p member
      simp only [MergeState.sources,Option.toList_some,List.singleton_append,List.mem_cons] at member
      rcases member with rfl | outer
      · exact closed src s (mine src (by simp [MergeState.sources])) hereSrc _ (.inr (.inl onward))
      · exact mine p (List.mem_cons_of_mem _ outer)
    · split at taken
      · exact .goes (returned_goes rfl (fun call member => List.mem_cons_of_mem _ (call_sources call member))
          (fun call member => ⟨List.mem_append_right _ (call_targets call member).1,List.mem_append_right _ (call_targets call member).2⟩) taken)
      · split at taken
        · rename_i first top climbed topped
          split at taken
          · cases taken
          · rename_i owner up
            cases taken
            obtain ⟨f,back,live⟩ := Option.bind_eq_some_iff.mp climbed
            obtain ⟨c,back',live'⟩ := Option.bind_eq_some_iff.mp topped
            obtain ⟨d,rfl,back'⟩ := Option.bind_eq_some_iff.mp back'
            refine .goes ⟨rfl,?_,?_⟩
            · intro own closed mine p member
              have mineFirst : own f := closed_walkBack closed (mine src (by simp [MergeState.sources])) back
              simp only [MergeState.sources,List.mem_cons] at member
              rcases member with rfl | outer
              · exact closed f first mineFirst live _ (.inr (.inr (.inl up)))
              · exact mine p (List.mem_cons_of_mem _ outer)
            · intro own closed mine q member
              have mineTop : own c := closed_walkBack closed (mine d (by simp [MergeState.targets])) back'
              rcases List.mem_append.mp member with here | outer
              · exact closed c top mineTop live' q (.inr (.inr (.inl (by simpa using here))))
              · exact mine q (List.mem_append_right _ outer)
        · cases taken

theorem step_does (taken : mergeStep st = .next later) : Does st later := by
  cases st with
  | loop heap src dst depth calls =>
      cases src with
      | none => exact .goes (returned_goes rfl call_sources
          (fun call member => ⟨List.mem_append_right _ (call_targets call member).1,List.mem_append_right _ (call_targets call member).2⟩) taken)
      | some src =>
          cases dst with
          | none =>
              simp only [mergeStep] at taken
              split at taken
              · rename_i bad
                cases bad
              · cases taken
          | some dst => exact loop_does taken
  | wild heap src dst tmp depth calls => exact wild_does taken
  | climb heap src dst depth calls => exact climb_does taken

theorem merge_done (taken : mergeStep st = .done result) : result = st.heap := by
  cases st with
  | loop heap src dst depth calls =>
      cases src with
      | none => exact returned_done taken
      | some src =>
          simp only [mergeStep] at taken
          repeat' split at taken
          all_goals cases taken
  | wild heap src dst tmp depth calls =>
      simp only [mergeStep] at taken
      repeat' split at taken
      all_goals cases taken
  | climb heap src dst depth calls =>
      simp only [mergeStep] at taken
      split at taken
      · cases taken
      · split at taken
        · cases taken
        · split at taken
          · exact returned_done taken
          · split at taken
            · split at taken
              · cases taken
              · cases taken
            · cases taken

theorem fixed_label {n m : Node Entry} (blank : n.label.key = none) : HasKey n.label → m.label = n.label :=
  fun keyed => absurd blank keyed

-- Without a cut an entry goes to a place that links lead to, and is the last on its level.
theorem leaf_writes (added : addLeaf h dst key value = some (later,r)) :
    ∃ q n, goal h dst = some q ∧ cell h q = some n ∧
      ((n.label.key = none ∧ r = q ∧ later = store h q { n with label := ⟨some (plainKey key),some value⟩,next := none }) ∨
        (HasKey n.label ∧ n.next = none ∧ r = h.length ∧ later =
          store (alloc h ⟨⟨some (plainKey key),some value⟩,some q,none,none,none⟩) q { n with next := some h.length })) := by
  obtain ⟨⟨middle,d⟩,placed,added⟩ := Option.bind_eq_some_iff.mp added
  obtain ⟨m,live,added⟩ := Option.bind_eq_some_iff.mp added
  simp only [Option.some.injEq,Prod.mk.injEq] at added
  obtain ⟨rfl,rfl⟩ := added
  obtain ⟨q,n,goes,here,⟨blank,rfl,rfl⟩ | ⟨keyed,last,rfl,rfl⟩⟩ := place_writes placed
  · obtain rfl := Option.some.inj ((cell_store (cell_bound here) _).symm.trans live)
    refine ⟨d,n,goes,here,.inl ⟨blank,rfl,?_⟩⟩
    exact store_twice h d _ _
  · have other : h.length ≠ q := by have := cell_bound here; omega
    have new : m = ⟨⟨some (plainKey key),some value⟩,some q,none,none,none⟩ := by
      rw [cell_store_other _ other,cell_alloc] at live
      exact (Option.some.inj live).symm
    subst new
    exact ⟨q,n,goes,here,.inr ⟨keyed,last,rfl,store_same live⟩⟩

theorem block_writes (added : addBlock h dst key value = some (later,c)) :
    ∃ q n middle d m, goal h dst = some q ∧ cell h q = some n ∧ cell middle d = some m ∧ c = middle.length ∧
      later = store (alloc middle ⟨.blank,none,none,some d,none⟩) d { m with parent := none,child := some middle.length } ∧
      ((n.label.key = none ∧ d = q ∧ m = { n with label := ⟨some key,some value⟩ } ∧ middle = store h q m) ∨
        (HasKey n.label ∧ n.next = none ∧ d = h.length ∧ m = ⟨⟨some key,some value⟩,some q,none,none,none⟩ ∧
          middle = store (alloc h m) q { n with next := some h.length })) := by
  obtain ⟨⟨middle,d⟩,placed,added⟩ := Option.bind_eq_some_iff.mp added
  obtain ⟨m,live,added⟩ := Option.bind_eq_some_iff.mp added
  simp only [Option.some.injEq,Prod.mk.injEq] at added
  obtain ⟨rfl,rfl⟩ := added
  obtain ⟨q,n,goes,here,⟨blank,rfl,rfl⟩ | ⟨keyed,last,rfl,rfl⟩⟩ := place_writes placed
  · obtain rfl := Option.some.inj ((cell_store (cell_bound here) _).symm.trans live)
    exact ⟨d,n,_,d,_,goes,here,live,rfl,rfl,.inl ⟨blank,rfl,rfl,rfl⟩⟩
  · have other : h.length ≠ q := by have := cell_bound here; omega
    have new : m = ⟨⟨some key,some value⟩,some q,none,none,none⟩ := by
      rw [cell_store_other _ other,cell_alloc] at live
      exact (Option.some.inj live).symm
    subst new
    exact ⟨q,n,_,_,_,goes,here,live,rfl,rfl,.inr ⟨keyed,last,rfl,rfl,rfl⟩⟩

theorem adds_goal (adds : Adds (.loop h (some src) (some dst) depth calls) whole q) : goal h dst = some q := by
  cases adds with
  | leaf _ _ goes => exact goes
  | block _ _ _ goes => exact goes

theorem step_grows (taken : mergeStep st = .next later) (whole : ¬Cuts st) : Grows HasKey st.heap later.heap := by
  cases step_does taken with
  | goes onward => exact onward.heap ▸ .refl _
  | leaf adds added =>
      obtain ⟨q,n,goes,here,⟨blank,-,rfl⟩ | ⟨-,last,-,rfl⟩⟩ := leaf_writes added
      · obtain rfl := Option.some.inj ((adds_goal adds).symm.trans goes)
        have last : n.next = none := by
          by_contra more
          exact whole ⟨_,n,here,blank,.inl ⟨adds,more⟩⟩
        refine grows_store here ⟨?_,fun _ same => same,fixed_label blank,fun same => same⟩
        intro r bad
        rw [last] at bad
        cases bad
      · exact grows_behind here last _
  | block adds added source down =>
      obtain ⟨q,n,middle,d,m,goes,here,live,-,rfl,⟨blank,rfl,rfl,rfl⟩ | ⟨-,last,rfl,rfl,rfl⟩⟩ := block_writes added
      · obtain rfl := Option.some.inj ((adds_goal adds).symm.trans goes)
        have childless : n.child = none := by
          by_contra some'
          exact whole ⟨_,n,here,blank,.inr ⟨adds,some'⟩⟩
        refine Grows.trans (grows_store here ?_) (grows_child live childless _ (fun _ => rfl))
        exact ⟨fun _ same => same,fun _ same => same,fixed_label blank,fun same => same⟩
      · exact (grows_behind here last _).trans (grows_child live rfl _ (fun _ => rfl))
  | opens source here keyed childless => exact grows_child here childless _ (fun same => same)

-- A cut changes blocks without a key only.
theorem step_firm (taken : mergeStep st = .next later) : Firm HasKey st.heap later.heap := by
  cases step_does taken with
  | goes onward => exact onward.heap ▸ (Grows.refl _).firm
  | leaf adds added =>
      obtain ⟨q,n,-,here,⟨blank,-,rfl⟩ | ⟨-,last,-,rfl⟩⟩ := leaf_writes added
      · exact firm_beside here (by simp [HasKey,blank]) (fun _ _ other => cell_store_other _ other)
      · exact (grows_behind here last _).firm
  | block adds added source down =>
      obtain ⟨q,n,middle,d,m,-,here,live,-,rfl,⟨blank,rfl,rfl,rfl⟩ | ⟨-,last,rfl,rfl,rfl⟩⟩ := block_writes added
      · refine firm_beside here (by simp [HasKey,blank]) ?_
        intro p old other
        exact (cell_beside _ _ (by simpa [MergeState.heap] using old) other).trans (cell_store_other _ other)
      · exact ((grows_behind here last _).trans (grows_child live rfl _ (fun _ => rfl))).firm
  | opens source here keyed childless => exact (grows_child here childless _ (fun same => same)).firm

theorem merge_firm (ends : Ends mergeStep st result) : Firm HasKey st.heap result := by
  obtain ⟨last,reached,done⟩ := ends_reaches ends
  rw [merge_done done]
  clear done ends
  induction reached with
  | refl => exact (Grows.refl _).firm
  | head taken _ ih => exact (step_firm taken).trans ih

-- Where an entry comes to dst the step adds it.
theorem adds_steps (adds : Adds st whole q) (taken : mergeStep st = .next later) :
    ∃ heap src dst depth calls key value, st = .loop heap (some src) (some dst) depth calls ∧
      ((whole = false ∧ ∃ filled r, addLeaf heap dst key value = some (filled,r) ∧ later = .climb filled src (some r) depth calls) ∨
        (whole = true ∧ ∃ opened c child, addBlock heap dst key value = some (opened,c) ∧
          later = .loop opened (some child) (some c) (depth + 1) calls)) := by
  cases adds with
  | leaf here misses goes =>
      obtain ⟨first,passed,back,search⟩ := misses
      simp only [mergeStep,here,back,search] at taken
      split at taken
      · cases taken
      · rename_i filled r added
        cases taken
        exact ⟨_,_,_,_,_,_,_,rfl,.inl ⟨rfl,filled,r,added,rfl⟩⟩
  | block here plain misses goes =>
      obtain ⟨first,passed,back,search⟩ := misses
      simp only [mergeStep,here,back,search,plain,if_false] at taken
      split at taken
      · cases taken
      · rename_i opened c added
        cases taken
        exact ⟨_,_,_,_,_,_,_,rfl,.inr ⟨rfl,opened,c,_,added,rfl⟩⟩

-- A block gets its key where an entry fills it, and there only.
theorem step_filled (taken : mergeStep st = .next later) (fills : Fills st q) : ∃ n, cell later.heap q = some n ∧ Filled n.label := by
  obtain ⟨whole,n,adds,here,blank⟩ := fills
  obtain ⟨heap,src,dst,depth,calls,key,value,rfl,⟨rfl,filled,r,added,rfl⟩ | ⟨rfl,opened,c,child,added,rfl⟩⟩ := adds_steps adds taken
  · obtain ⟨q',n',goes,here',⟨-,-,rfl⟩ | ⟨keyed,-⟩⟩ := leaf_writes added
    · obtain rfl := Option.some.inj ((adds_goal adds).symm.trans goes)
      exact ⟨_,cell_store (cell_bound here) _,_,_,rfl⟩
    · obtain rfl := Option.some.inj ((adds_goal adds).symm.trans goes)
      obtain rfl := Option.some.inj (here.symm.trans here')
      exact absurd blank keyed
  · obtain ⟨q',n',middle,d,m,goes,here',live,-,rfl,⟨-,rfl,rfl,rfl⟩ | ⟨keyed,-⟩⟩ := block_writes added
    · obtain rfl := Option.some.inj ((adds_goal adds).symm.trans goes)
      have bound := cell_bound here
      exact ⟨_,cell_store (by rw [alloc_length,store_length]; exact Nat.lt_succ_of_lt bound) _,_,_,rfl⟩
    · obtain rfl := Option.some.inj ((adds_goal adds).symm.trans goes)
      obtain rfl := Option.some.inj (here.symm.trans here')
      exact absurd blank keyed

theorem step_label (taken : mergeStep st = .next later) (here : cell st.heap q = some n) :
    (∃ m, cell later.heap q = some m ∧ m.label = n.label) ∨ (n.label.key = none ∧ Fills st q) := by
  have live := cell_bound here
  cases step_does taken with
  | goes onward => exact .inl ⟨n,onward.heap ▸ here,rfl⟩
  | @leaf heap src dst depth calls goal' key value filled r adds added =>
      have here : cell heap q = some n := here
      obtain ⟨q',n',goes,here',⟨blank,-,rfl⟩ | ⟨-,-,-,rfl⟩⟩ := leaf_writes added
      · by_cases own : q = q'
        · subst own
          obtain rfl := Option.some.inj (here.symm.trans here')
          obtain rfl := Option.some.inj ((adds_goal adds).symm.trans goes)
          exact .inr ⟨blank,_,n,adds,here,blank⟩
        · exact .inl ⟨n,(cell_store_other _ own).trans here,rfl⟩
      · by_cases own : q = q'
        · subst own
          obtain rfl := Option.some.inj (here.symm.trans here')
          exact .inl ⟨_,cell_store (by rw [alloc_length]; exact Nat.lt_succ_of_lt live) _,rfl⟩
        · exact .inl ⟨n,(cell_beside _ _ live own).trans here,rfl⟩
  | @block heap src dst depth calls goal' key value opened c s child adds added source down =>
      have here : cell heap q = some n := here
      have live : q < heap.length := live
      obtain ⟨q',n',middle,d,m',goes,here',live',-,rfl,⟨blank,rfl,rfl,rfl⟩ | ⟨-,-,rfl,rfl,made⟩⟩ := block_writes added
      · by_cases own : q = d
        · subst own
          obtain rfl := Option.some.inj (here.symm.trans here')
          obtain rfl := Option.some.inj ((adds_goal adds).symm.trans goes)
          exact .inr ⟨blank,_,n,adds,here,blank⟩
        · exact .inl ⟨n,(cell_beside _ _ (by simpa using live) own).trans ((cell_store_other _ own).trans here),rfl⟩
      · have inside : q < middle.length := by
          rw [made,store_length,alloc_length]
          exact Nat.lt_succ_of_lt live
        have kept : ∃ m, cell middle q = some m ∧ m.label = n.label := by
          rw [made]
          by_cases own : q = q'
          · subst own
            obtain rfl := Option.some.inj (here.symm.trans here')
            exact ⟨_,cell_store (by rw [alloc_length]; exact Nat.lt_succ_of_lt live) _,rfl⟩
          · exact ⟨n,(cell_beside _ _ live own).trans here,rfl⟩
        obtain ⟨m,there,same⟩ := kept
        exact .inl ⟨m,(cell_beside _ _ inside (Nat.ne_of_lt live)).trans there,same⟩
  | @opens heap src s tmp n' dst depth calls source here' keyed' childless =>
      have here : cell heap q = some n := here
      by_cases own : q = tmp
      · subst own
        obtain rfl := Option.some.inj (here.symm.trans here')
        exact .inl ⟨_,cell_store (by rw [alloc_length]; exact Nat.lt_succ_of_lt live) _,rfl⟩
      · exact .inl ⟨n,(cell_beside _ _ live own).trans here,rfl⟩


end Trollbot.Tconfig

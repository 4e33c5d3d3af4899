import Trollbot.TconfigMergeRuns
import Trollbot.TconfigMergeSteps

-- The links of a tree that another one was merged into.
namespace Trollbot.Tconfig
open CBuffer Linked Machine

-- A level of dst became another one.
structure Became (h : Heap Entry) (upper : Option Nat) (a : Placed Entry) (later : Heap Entry) (new : Placed Entry) : Prop where
  rep : Rep later none upper none new
  replaces : Replaces h a new
  keeps : Keeps (addresses a) h later

theorem Became.refl (level : Level h upper a dst) : Became h upper a h a := ⟨level.rep,.refl h level.separate,.refl _ h⟩

theorem Became.trans (first : Became h upper a middle between) (second : Became middle upper between later new) :
    Became h upper a later new :=
  ⟨second.rep,first.replaces.trans second.replaces first.keeps.grows,first.keeps.trans second.keeps first.replaces.fresh⟩

theorem Became.level (became : Became h upper a later new) (member : dst ∈ siblings new) : Level later upper new dst :=
  ⟨became.rep,became.replaces.separate,member⟩

theorem Became.children {x below new y : Placed Entry} (became : Became h upper a middle (x.append (.cons (t,f) below y)))
    (inside : Became middle (some t) below later new) : Became h upper a later (x.append (.cons (t,f) new y)) := by
  have separate := became.replaces.separate
  refine ⟨rep_children became.rep separate inside.keeps inside.rep inside.replaces,?_,?_⟩
  · exact became.replaces.trans (replaces_children became.rep separate inside.replaces.separate inside.replaces.fresh f)
      became.keeps.grows
  · exact became.keeps.trans inside.keeps (fun q member => became.replaces.fresh q (by simp [member]))

theorem below_member {b : Placed Entry} (member : q ∈ addresses b) :
    q ∈ siblings b ∨ ∃ (x : Placed Entry) (t : Nat) (f : Entry) (below y : Placed Entry),
      b = x.append (.cons (t,f) below y) ∧ q ∈ addresses below := by
  induction b with
  | nil => cases member
  | cons label children rest _ ih =>
      obtain ⟨t,f⟩ := label
      simp only [addresses_cons,List.mem_cons,List.mem_append] at member
      rcases member with rfl | inChildren | inRest
      · exact .inl (by simp [siblings,Forest.row])
      · exact .inr ⟨Forest.nil,t,f,children,rest,rfl,inChildren⟩
      · rcases ih inRest with row | ⟨x,u,g,below,y,rfl,inside⟩
        · exact .inl (List.mem_cons_of_mem _ row)
        · exact .inr ⟨Forest.cons (t,f) children x,u,g,below,y,rfl,inside⟩

-- The level a block is on, and what the tree becomes when the level becomes another one.
theorem level_of {b : Placed Entry} (rep : Rep h none upper none b) (separate : Separate b) (member : q ∈ addresses b) :
    ∃ (upper' : Option Nat) (l : Placed Entry), Level h upper' l q ∧ (∀ p ∈ addresses l, p ∈ addresses b) ∧ ∀ later new, Became h upper' l later new →
      ∃ b' : Placed Entry, Became h upper b later b' ∧ ∀ p, p ∈ addresses b' ↔ p ∈ addresses new ∨ (p ∈ addresses b ∧ p ∉ addresses l) := by
  generalize size : (addresses b).length = n
  induction n using Nat.strongRecOn generalizing b upper with
  | ind n ih =>
      rcases below_member member with row | ⟨x,t,f,below,y,rfl,inside⟩
      · refine ⟨upper,b,⟨rep,separate,row⟩,fun p there => there,?_⟩
        intro later new became
        exact ⟨new,became,fun p => by simp⟩
      · have smaller : (addresses below).length < n := by
          simp only [← size,addresses_append,addresses_cons,List.length_append,List.length_cons]
          omega
        obtain ⟨separateBelow,notChild,-,-,apart⟩ := separate_node separate
        obtain ⟨upper',l,level,within,lift⟩ := ih _ smaller (rep_node rep).2 separateBelow inside rfl
        refine ⟨upper',l,level,fun p there => by simp [within p there],?_⟩
        intro later new became
        obtain ⟨below',became',same⟩ := lift later new became
        have whole : Became h upper (x.append (.cons (t,f) below y)) h (x.append (.cons (t,f) below y)) :=
          ⟨rep,.refl h separate,.refl _ h⟩
        refine ⟨_,whole.children became',?_⟩
        intro p
        have outside : p ∈ addresses l → p ∉ addresses x ∧ p ≠ t ∧ p ∉ addresses y := by
          intro there
          exact ⟨(apart p (within p there)).1,fun bad => notChild (bad ▸ within p there),(apart p (within p there)).2⟩
        simp only [addresses_append,addresses_cons,List.mem_append,List.mem_cons,same]
        tauto

section tree
variable {h : Heap Entry} {b : Placed Entry} (rep : Rep h none none none b) (separate : Separate b) (member : q ∈ addresses b)
  (here : cell h q = some n)
include rep separate member here

theorem fill_tree (e : Entry) :
    ∃ b' : Placed Entry, Became h none b (store h q { n with label := e }) b' ∧ ∀ p, p ∈ addresses b' ↔ p ∈ addresses b := by
  obtain ⟨upper,l,level,within,lift⟩ := level_of rep separate member
  obtain ⟨x,label,children,y,rfl⟩ := siblings_split level.member
  have separateChildren := (separate_node level.separate).1
  have new : Became h upper (x.append (.cons (q,label) children y)) (store h q { n with label := e }) (x.append (.cons (q,e) children y)) := by
    refine ⟨rep_relabel level.rep level.separate here e,?_,(keeps_store h q _).wider (by simp)⟩
    exact replaces_children level.rep level.separate separateChildren (fun _ inside => .inl inside) e
  obtain ⟨b',became,same⟩ := lift _ _ new
  refine ⟨b',became,fun p => ?_⟩
  rw [same]
  have inside := within p
  simp only [addresses_append,addresses_cons,List.mem_append,List.mem_cons] at inside ⊢
  tauto

-- A new block, at the end of a level or as an only child.
theorem behind_tree (last : n.next = none) (e : Entry) :
    ∃ b' : Placed Entry, Became h none b (store (alloc h ⟨e,some q,none,none,none⟩) q { n with next := some h.length }) b' ∧
      ∀ p, p ∈ addresses b' ↔ p ∈ addresses b ∨ p = h.length := by
  obtain ⟨upper,l,level,within,lift⟩ := level_of rep separate member
  obtain ⟨x,label,children,y,rfl⟩ := siblings_split level.member
  obtain rfl : y = .nil := by
    obtain rfl := Option.some.inj (here.symm.trans (rep_node level.rep).1)
    exact head_none (by simpa using last)
  have new : Became h upper (x.append (.one (q,label) children))
      (store (alloc h ⟨e,some q,none,none,none⟩) q { n with next := some h.length }) (x.append (.cons (q,label) children (.one (h.length,e) .nil))) := by
    refine ⟨rep_addSibling level.rep level.separate here e,replaces_fresh level.rep level.separate e,?_⟩
    refine (keeps_alloc _ h _).trans (keeps_store _ q _) ?_
    intro p same
    obtain rfl := List.mem_singleton.mp same
    exact .inl (by simp [Forest.one])
  obtain ⟨b',became,same⟩ := lift _ _ new
  refine ⟨b',became,fun p => ?_⟩
  rw [same]
  have inside := within p
  simp only [Forest.one,addresses_append,addresses_cons,addresses_nil,List.mem_append,List.mem_cons,List.not_mem_nil,or_false] at inside ⊢
  tauto

theorem child_tree (childless : n.child = none) :
    ∃ b' : Placed Entry, Became h none b (store (alloc h ⟨.blank,none,none,some q,none⟩) q { n with child := some h.length }) b' ∧
      ∀ p, p ∈ addresses b' ↔ p ∈ addresses b ∨ p = h.length := by
  obtain ⟨upper,l,level,within,lift⟩ := level_of rep separate member
  obtain ⟨x,label,children,y,rfl⟩ := siblings_split level.member
  obtain rfl : children = .nil := by
    obtain rfl := Option.some.inj (here.symm.trans (rep_node level.rep).1)
    exact head_none childless
  obtain ⟨opened,replaces,keeps,-⟩ := child_opens level.rep level.separate here rfl
  obtain ⟨b',became,same⟩ := lift _ _ ⟨opened,replaces,keeps⟩
  refine ⟨b',became,fun p => ?_⟩
  rw [same]
  have inside := within p
  simp only [Forest.one,addresses_append,addresses_cons,addresses_nil,List.mem_append,List.mem_cons,List.not_mem_nil,false_or,or_false] at inside ⊢
  tauto

omit separate in
theorem tree_closed : ∀ r, n.prev = some r ∨ n.next = some r ∨ n.parent = some r ∨ n.child = some r → r ∈ addresses b :=
  rep_closed rep (fun _ inside => inside) (by simp) member here

end tree

-- dst, which started as `a`, is a tree apart from src.
structure TwoTrees (s a b : Placed Entry) (h : Heap Entry) : Prop where
  rep : Rep h none none none b
  separate : Separate b
  head : head b = head a
  source : Rep h none none none s
  apart : ∀ p ∈ addresses s, p ∉ addresses b

-- And the pointers are to blocks of the two.
structure Goes (s a b : Placed Entry) (st : MergeState) : Prop where
  trees : TwoTrees s a b st.heap
  sources : ∀ p ∈ st.sources, p ∈ addresses s
  targets : ∀ q ∈ st.targets, q ∈ addresses b

def Blank (h : Heap Entry) (p : Nat) : Prop := ∃ n, cell h p = some n ∧ n.label.key = none

-- The walk is in a child list that starts with a blank block, or was when it came there.
def AtBlank (st : MergeState) (q : Nat) : Prop :=
  ∃ heap src depth calls, st = .loop heap src (some q) depth calls ∧ Blank heap q

theorem TwoTrees.became (trees : TwoTrees s a b h) (became : Became h none b later b') : TwoTrees s a b' later := by
  obtain ⟨source,apart⟩ := source_frame became.replaces became.keeps trees.source trees.apart
  exact ⟨became.rep,became.replaces.separate,became.replaces.head.trans trees.head,source,apart⟩

theorem Goes.closed (goes : Goes s a b st) : Closed (fun p => p ∈ addresses s) st.heap ∧ Closed (fun q => q ∈ addresses b) st.heap :=
  ⟨fun _ _ mine here => tree_closed goes.trees.source mine here,fun _ _ mine here => tree_closed goes.trees.rep mine here⟩

-- The new blocks have a key and a value, or are the blank child that the walk goes on to.
def New (st : MergeState) (p : Nat) : Prop := (∃ n, cell st.heap p = some n ∧ Filled n.label) ∨ AtBlank st p

theorem goal_member (goes : Goes s a b st) (mine : dst ∈ st.targets) (walked : goal st.heap dst = some q) : q ∈ addresses b :=
  (closed_walkEnd goes.closed.2 (goes.targets dst mine) walked).1

theorem opened_blank {h : Heap Entry} (here : cell h p = some n) (upper : Option Nat) (src : Option Nat) (depth : Nat) (calls : List Call) :
    AtBlank (.loop (store (alloc h ⟨.blank,none,none,some p,none⟩) p { n with parent := upper,child := some h.length }) src (some h.length) depth calls)
      h.length := by
  have other : h.length ≠ p := by have := cell_bound here; omega
  refine ⟨_,src,depth,calls,rfl,⟨.blank,none,none,some p,none⟩,?_,rfl⟩
  rw [cell_store_other _ other,cell_alloc]

section step
variable {s a b : Placed Entry} {heap filled : Heap Entry} {src dst depth q : Nat} {calls : List Call} {key value : Str}
  (goes : Goes s a b (.loop heap (some src) (some dst) depth calls))
include goes

theorem leaf_goes (adds : Adds (.loop heap (some src) (some dst) depth calls) false q) (added : addLeaf heap dst key value = some (filled,r))
    (whole : ¬Cuts (.loop heap (some src) (some dst) depth calls)) :
    ∃ b' : Placed Entry, Goes s a b' (.climb filled src (some r) depth calls) ∧ (∀ p ∈ addresses b, p ∈ addresses b') ∧
      ∀ p ∈ addresses b', p ∈ addresses b ∨ New (.climb filled src (some r) depth calls) p := by
  have mine : q ∈ addresses b := goal_member goes (by simp [MergeState.targets]) (adds_goal adds)
  obtain ⟨q',n,walked,here,writes⟩ := leaf_writes added
  obtain rfl := Option.some.inj ((adds_goal adds).symm.trans walked)
  have climbs : ∀ (later : Heap Entry) (b' : Placed Entry) (r : Nat), Became heap none b later b' → r ∈ addresses b' →
      (∀ p ∈ addresses b, p ∈ addresses b') → Goes s a b' (.climb later src (some r) depth calls) := by
    intro later b' r became inside more
    refine ⟨goes.trees.became became,fun p there => goes.sources p (by simpa [MergeState.sources] using there),?_⟩
    intro t there
    simp only [MergeState.targets,Option.toList_some,List.singleton_append,List.mem_cons] at there
    rcases there with rfl | outer
    · exact inside
    · exact more t (goes.targets t (by simp [MergeState.targets,outer]))
  rcases writes with ⟨blank,rfl,rfl⟩ | ⟨-,last,rfl,rfl⟩
  · have last : n.next = none := by
      by_contra more
      exact whole ⟨r,n,here,blank,.inl ⟨adds,more⟩⟩
    obtain ⟨b',became,same⟩ := fill_tree goes.trees.rep goes.trees.separate mine here ⟨some (plainKey key),some value⟩
    rw [last] at became
    have more : ∀ p ∈ addresses b, p ∈ addresses b' := fun p there => (same p).mpr there
    exact ⟨b',climbs _ b' r became (more r mine) more,more,fun p there => .inl ((same p).mp there)⟩
  · obtain ⟨b',became,same⟩ := behind_tree goes.trees.rep goes.trees.separate mine here last ⟨some (plainKey key),some value⟩
    have more : ∀ p ∈ addresses b, p ∈ addresses b' := fun p there => (same p).mpr (.inl there)
    refine ⟨b',climbs _ b' _ became ((same _).mpr (.inr rfl)) more,more,?_⟩
    intro p there
    rcases (same p).mp there with old | rfl
    · exact .inl old
    · have other : heap.length ≠ q := by have := cell_bound here; omega
      exact .inr (.inl ⟨_,(cell_store_other _ other).trans (cell_alloc _ _),_,_,rfl⟩)

theorem block_goes (adds : Adds (.loop heap (some src) (some dst) depth calls) true q) (added : addBlock heap dst key value = some (filled,c))
    (source : cell heap src = some m) (down : m.child = some child)
    (attached : ¬Severs (.loop heap (some src) (some dst) depth calls)) (whole : ¬Cuts (.loop heap (some src) (some dst) depth calls)) :
    ∃ b' : Placed Entry, Goes s a b' (.loop filled (some child) (some c) (depth + 1) calls) ∧ (∀ p ∈ addresses b, p ∈ addresses b') ∧
      ∀ p ∈ addresses b', p ∈ addresses b ∨ New (.loop filled (some child) (some c) (depth + 1) calls) p := by
  have mine : q ∈ addresses b := goal_member goes (by simp [MergeState.targets]) (adds_goal adds)
  obtain ⟨q',n,middle,d,m',walked,here,live,rfl,rfl,writes⟩ := block_writes added
  obtain rfl := Option.some.inj ((adds_goal adds).symm.trans walked)
  have below : child ∈ addresses s :=
    goes.closed.1 src m (goes.sources src (by simp [MergeState.sources])) source child (.inr (.inr (.inr down)))
  -- the entry first, then its blank child
  have placed : m'.parent = none ∧ m'.child = none ∧ ∃ b1 : Placed Entry, Became heap none b middle b1 ∧ d ∈ addresses b1 ∧
      (∀ p ∈ addresses b, p ∈ addresses b1) ∧ ∀ p ∈ addresses b1, p ∈ addresses b ∨ p = d := by
    rcases writes with ⟨blank,rfl,rfl,rfl⟩ | ⟨-,last,rfl,rfl,rfl⟩
    · have parent : n.parent = none := by
        by_contra some'
        exact attached ⟨d,n,adds,here,blank,some'⟩
      have childless : n.child = none := by
        by_contra some'
        exact whole ⟨d,n,here,blank,.inr ⟨adds,some'⟩⟩
      obtain ⟨b1,became,same⟩ := fill_tree goes.trees.rep goes.trees.separate mine here ⟨some key,some value⟩
      exact ⟨parent,childless,b1,became,(same d).mpr mine,fun p there => (same p).mpr there,fun p there => .inl ((same p).mp there)⟩
    · obtain ⟨b1,became,same⟩ := behind_tree goes.trees.rep goes.trees.separate mine here last ⟨some key,some value⟩
      exact ⟨rfl,rfl,b1,became,(same _).mpr (.inr rfl),fun p there => (same p).mpr (.inl there),fun p there => (same p).mp there⟩
  obtain ⟨orphan,childless,b1,became,there,more,only⟩ := placed
  have trees := goes.trees.became became
  obtain ⟨b2,became',same⟩ := child_tree trees.rep trees.separate there live childless
  have stored : ({ m' with parent := none,child := some middle.length } : Node Entry) = { m' with child := some middle.length } := by
    rw [orphan]
  have stands := opened_blank live none (some child) (depth + 1) calls
  rw [stored] at stands ⊢
  have trees' := trees.became became'
  refine ⟨b2,⟨trees',?_,?_⟩,fun p old => (same p).mpr (.inl (more p old)),?_⟩
  · intro p inside
    simp only [MergeState.sources,Option.toList_some,List.singleton_append,List.mem_cons] at inside
    rcases inside with rfl | outer
    · exact below
    · exact goes.sources p (by simp [MergeState.sources,outer])
  · intro t inside
    simp only [MergeState.targets,Option.toList_some,List.singleton_append,List.mem_cons] at inside
    rcases inside with rfl | outer
    · exact (same _).mpr (.inr rfl)
    · exact (same t).mpr (.inl (more t (goes.targets t (by simp [MergeState.targets,outer]))))
  · intro p inside
    rcases (same p).mp inside with old | rfl
    · rcases only p old with older | rfl
      · exact .inl older
      · have other : p ≠ middle.length := by have := cell_bound live; omega
        have kept : cell (store (alloc middle ⟨.blank,none,none,some p,none⟩) p { m' with child := some middle.length }) p = _ :=
          cell_store (by have := cell_bound live; rw [alloc_length]; omega) _
        refine .inr (.inl ⟨_,kept,?_⟩)
        rcases writes with ⟨-,-,rfl,-⟩ | ⟨-,-,-,rfl,-⟩
        · exact ⟨_,_,rfl⟩
        · exact ⟨_,_,rfl⟩
    · exact .inr (.inr stands)

end step

theorem step_goes (goes : Goes s a b st) (taken : mergeStep st = .next later) (attached : ¬Severs st) (whole : ¬Cuts st) :
    ∃ b' : Placed Entry, Goes s a b' later ∧ (∀ p ∈ addresses b, p ∈ addresses b') ∧ ∀ p ∈ addresses b', p ∈ addresses b ∨ New later p := by
  cases step_does taken with
  | goes onward =>
      refine ⟨b,⟨?_,onward.sources _ goes.closed.1 goes.sources,onward.targets _ goes.closed.2 goes.targets⟩,fun p there => there,fun p => .inl⟩
      rw [onward.heap]
      exact goes.trees
  | leaf adds added => exact leaf_goes goes adds added whole
  | block adds added source down => exact block_goes goes adds added source down attached whole
  | @opens heap src m tmp n dst depth calls source here keyed childless =>
      have mine : tmp ∈ addresses b := goes.targets tmp (by simp [MergeState.targets])
      obtain ⟨b',became,same⟩ := child_tree goes.trees.rep goes.trees.separate mine here childless
      have inSrc := goes.sources src (by simp [MergeState.sources])
      refine ⟨b',⟨goes.trees.became became,?_,?_⟩,fun p old => (same p).mpr (.inl old),?_⟩
      · intro p inside
        simp only [MergeState.sources,List.map_cons,List.mem_append,Option.mem_toList,List.mem_cons] at inside
        rcases inside with below | rfl | outer
        · exact goes.closed.1 src m inSrc source p (.inr (.inr (.inr below)))
        · exact inSrc
        · exact goes.sources p (by simp [MergeState.sources,outer])
      · intro t inside
        simp only [MergeState.targets,Option.toList_some,List.flatMap_cons,List.cons_append,List.nil_append,List.mem_cons] at inside
        rcases inside with rfl | rfl | rfl | outer
        · exact (same _).mpr (.inr rfl)
        · exact (same _).mpr (.inl (goes.targets _ (by simp [MergeState.targets])))
        · exact (same _).mpr (.inl mine)
        · exact (same t).mpr (.inl (goes.targets t (by simp [MergeState.targets,outer])))
      · intro p inside
        rcases (same p).mp inside with old | rfl
        · exact .inl old
        · exact .inr (.inr (opened_blank here n.parent m.child 0 (⟨src,dst,tmp,depth⟩ :: calls)))

-- Every block has a key and a value, or is one of `open'` and has no key.
def Blocks (open' : Nat → Prop) (b : Placed Entry) (h : Heap Entry) : Prop :=
  ∀ p ∈ addresses b, ∃ n, cell h p = some n ∧ (Filled n.label ∨ (n.label.key = none ∧ open' p))

theorem step_blocks {b b' : Placed Entry} (taken : mergeStep st = .next later) (stands : ∀ q, AtBlank later q → open' q)
    (new : ∀ p ∈ addresses b', p ∈ addresses b ∨ New later p) (blocks : Blocks open' b st.heap) : Blocks open' b' later.heap := by
  intro p inside
  rcases new p inside with old | ⟨n,here,filled⟩ | blank
  · obtain ⟨n,here,known⟩ := blocks p old
    rcases step_label taken here with ⟨m,there,same⟩ | ⟨-,fills⟩
    · exact ⟨m,there,same ▸ known⟩
    · obtain ⟨m,there,filled⟩ := step_filled taken fills
      exact ⟨m,there,.inl filled⟩
  · exact ⟨n,here,.inl filled⟩
  · have mine := stands p blank
    obtain ⟨heap,src,depth,calls,rfl,n,here,none'⟩ := blank
    exact ⟨n,here,.inr ⟨none',mine⟩⟩

-- A walk on which nothing is severed or cut stays in the two trees.
theorem reaches_goes (reached : Reaches mergeStep st later) (goes : Goes s a b st)
    (clean : ∀ mid c, Reaches mergeStep st mid → Goes s a c mid → ¬Severs mid ∧ ¬Cuts mid) :
    ∃ b' : Placed Entry, Goes s a b' later ∧ (∀ p ∈ addresses b, p ∈ addresses b') ∧ ∀ open' : Nat → Prop,
      (∀ mid q, Reaches mergeStep st mid → AtBlank mid q → open' q) → Blocks open' b st.heap → Blocks open' b' later.heap := by
  induction reached generalizing b with
  | refl => exact ⟨b,goes,fun p there => there,fun _ _ blocks => blocks⟩
  | head taken _ ih =>
      obtain ⟨attached,whole⟩ := clean _ b .refl goes
      obtain ⟨b',goes',more,new⟩ := step_goes goes taken attached whole
      obtain ⟨b'',last,most,blocks⟩ := ih goes' (fun mid c reached' => clean mid c (.head taken reached'))
      refine ⟨b'',last,fun p there => most p (more p there),?_⟩
      intro open' stands begun
      exact blocks open' (fun mid q reached' => stands mid q (.head taken reached'))
        (step_blocks taken (fun q => stands _ q (.one taken)) new begun)

theorem walk_grows (ends : Ends mergeStep st result) (whole : ∀ mid, Reaches mergeStep st mid → ¬Cuts mid) :
    Grows HasKey st.heap result := by
  obtain ⟨last,reached,done⟩ := ends_reaches ends
  rw [merge_done done]
  clear done ends
  induction reached with
  | refl => exact .refl _
  | head taken _ ih => exact (step_grows taken (whole _ .refl)).trans (ih (fun mid reached => whole mid (.head taken reached)))

-- Where an entry comes to dst the merge that ends goes on.
theorem adds_goes_on (adds : Adds st whole q) (ends : Ends mergeStep st result) : ∃ later, mergeStep st = .next later := by
  cases taken : mergeStep st with
  | next later => exact ⟨later,rfl⟩
  | fault => exact absurd ends (fault_stays (show runFor mergeStep 1 st = .fault by simp [runFor,taken]))
  | done other =>
      cases adds with
      | leaf here misses _ =>
          obtain ⟨first,passed,back,search⟩ := misses
          simp only [mergeStep,here,back,search] at taken
          split at taken <;> cases taken
      | block here plain misses _ =>
          obtain ⟨first,passed,back,search⟩ := misses
          simp only [mergeStep,here,back,search,plain,if_false] at taken
          split at taken <;> cases taken

theorem Filled.hasKey (filled : Filled e) : HasKey e := by
  obtain ⟨key,value,rfl⟩ := filled
  simp [HasKey]

theorem key_stays (ends : Ends mergeStep st result) (here : cell st.heap q = some n) (keyed : HasKey n.label) :
    ∃ m, cell result q = some m ∧ m.label = n.label := by
  obtain ⟨last,reached,done⟩ := ends_reaches ends
  rw [merge_done done]
  clear done ends
  induction reached generalizing n with
  | refl => exact ⟨n,here,rfl⟩
  | head taken _ ih =>
      rcases step_label taken here with ⟨m,there,same⟩ | ⟨blank,-⟩
      · obtain ⟨l,end',same'⟩ := ih there (same ▸ keyed)
        exact ⟨l,end',same'.trans same⟩
      · exact absurd blank keyed

theorem fills_stays (fills : Fills st q) (ends : Ends mergeStep st result) : ∃ n, cell result q = some n ∧ HasKey n.label := by
  obtain ⟨later,taken⟩ : ∃ later, mergeStep st = .next later := by
    obtain ⟨whole,n,adds,-⟩ := fills
    exact adds_goes_on adds ends
  obtain ⟨m,there,filled⟩ := step_filled taken fills
  obtain ⟨l,last,same⟩ := key_stays (ends_step taken ends) there filled.hasKey
  exact ⟨l,last,same ▸ filled.hasKey⟩

-- And a block that has got one was filled on the way.
theorem filled_somewhere (reached : Reaches mergeStep st last) (blank : Blank st.heap q) (filled : ¬Blank last.heap q) :
    ∃ mid, Reaches mergeStep st mid ∧ Fills mid q := by
  induction reached with
  | refl => exact absurd blank filled
  | head taken _ ih =>
      obtain ⟨n,here,none'⟩ := blank
      rcases step_label taken here with ⟨m,there,same⟩ | ⟨-,fills⟩
      · obtain ⟨mid,reached,fills⟩ := ih ⟨m,there,same ▸ none'⟩ filled
        exact ⟨mid,.head taken reached,fills⟩
      · exact ⟨_,.refl,fills⟩

theorem rep_entry {b : Placed Entry} (rep : Rep h prev parent stop b) : ∀ label ∈ b.labels, ∃ n, cell h label.1 = some n ∧ n.label = label.2 := by
  induction b generalizing prev parent stop with
  | nil => simp [Forest.labels]
  | cons label children rest ihChildren ihRest =>
      obtain ⟨p,e⟩ := label
      obtain ⟨here,below,after⟩ := rep
      intro other member
      simp only [Forest.labels,List.mem_cons,List.mem_append] at member
      rcases member with rfl | inChildren | inRest
      · exact ⟨_,here,rfl⟩
      · exact ihChildren below other inChildren
      · exact ihRest after other inRest

theorem cell_label {b : Placed Entry} (rep : Rep h prev parent stop b) (member : p ∈ addresses b) (live : cell h p = some n) :
    n.label ∈ (bare b).labels := by
  obtain ⟨label,inside,rfl⟩ := List.mem_map.mp member
  obtain ⟨m,here,same⟩ := rep_entry rep label inside
  obtain rfl := Option.some.inj (live.symm.trans here)
  rw [bare,Forest.labels_map,same]
  exact List.mem_map_of_mem inside

theorem label_cell {b : Placed Entry} (rep : Rep h prev parent stop b) (member : e ∈ (bare b).labels) :
    ∃ p ∈ addresses b, ∃ n, cell h p = some n ∧ n.label = e := by
  rw [bare,Forest.labels_map] at member
  obtain ⟨label,inside,rfl⟩ := List.mem_map.mp member
  obtain ⟨n,here,same⟩ := rep_entry rep label inside
  exact ⟨label.1,List.mem_map_of_mem inside,n,here,same⟩

-- The states that the merge of `s` into dst goes through.
def Walk (h : Heap Entry) (s : Placed Entry) (dst : Nat) (st : MergeState) : Prop :=
  Reaches mergeStep (.loop h (head s) (some dst) 0 []) st

-- A block without a key: one of dst, or a blank child that was made on the way.
def Opened (h : Heap Entry) (s a : Placed Entry) (dst p : Nat) : Prop :=
  (p ∈ addresses a ∧ Blank h p) ∨ ∃ st, Walk h s dst st ∧ AtBlank st p

structure Settled (h : Heap Entry) (s a : Placed Entry) (dst : Nat) : Prop where
  values : ∀ e ∈ (bare a).labels, HasKey e → e.value ≠ none
  attached : ∀ st, Walk h s dst st → ¬Severs st
  whole : ∀ st, Walk h s dst st → ¬Cuts st
  filled : ∀ p, Opened h s a dst p → ∃ st, Walk h s dst st ∧ Fills st p

-- The tree that is left at dst: whole in its links, every block with key and value, and nothing of src in it.
def Kept (later : Heap Entry) (s a : Placed Entry) : Prop :=
  ∃ b : Placed Entry, Rep later none none none b ∧ Separate b ∧ head b = head a ∧ (∀ e ∈ (bare b).labels, Filled e) ∧
    ∀ p ∈ addresses b, p ∉ addresses s

theorem start_goes {s a : Placed Entry} (repSrc : Rep h none none none s) (repDst : Rep h none none none a) (separate : Separate a)
    (member : dst ∈ siblings a) (apart : ∀ p ∈ addresses s, p ∉ addresses a) : Goes s a a (.loop h (head s) (some dst) 0 []) := by
  refine ⟨⟨repDst,separate,rfl,repSrc,apart⟩,?_,?_⟩
  · intro p there
    simp only [MergeState.sources,List.map_nil,List.append_nil,Option.mem_toList] at there
    exact siblings_address (head_member there)
  · intro q there
    simp only [MergeState.targets,Option.toList_some,List.flatMap_nil,List.append_nil,List.mem_singleton] at there
    exact there ▸ siblings_address member

-- A block that has lost its parent does not get it back.
theorem severed_lost {s a : Placed Entry} (ends : Ends mergeStep start later) (reached : Reaches mergeStep start st)
    (goes : Goes s a b st) (severs : Severs st) (whole : ∀ mid, Reaches mergeStep start mid → ¬Cuts mid) : ¬Kept later s a := by
  rintro ⟨final,rep,-,headed,-⟩
  obtain ⟨q,n,adds,here,blank,owned⟩ := severs
  have ends' := reached.ends_after ends
  obtain ⟨next,taken⟩ := adds_goes_on adds ends'
  have mine : ∃ m, cell next.heap q = some m ∧ m.parent = none := by
    obtain ⟨heap,src,dst,depth,calls,key,value,rfl,⟨bad,-⟩ | ⟨-,opened,c,child,added,rfl⟩⟩ := adds_steps adds taken
    · cases bad
    · obtain ⟨q',n',middle,d,m,goal',here',live,-,rfl,⟨-,rfl,rfl,rfl⟩ | ⟨keyed,-⟩⟩ := block_writes added
      · obtain rfl := Option.some.inj ((adds_goal adds).symm.trans goal')
        exact ⟨_,cell_store (by rw [alloc_length]; exact Nat.lt_succ_of_lt (cell_bound live)) _,rfl⟩
      · obtain rfl := Option.some.inj ((adds_goal adds).symm.trans goal')
        obtain rfl := Option.some.inj (here.symm.trans here')
        exact absurd blank keyed
  obtain ⟨m,there,lost⟩ := mine
  have inside : q ∈ addresses b := by
    cases adds with
    | block _ _ _ walked => exact goal_member goes (by simp [MergeState.targets]) walked
  obtain ⟨p,first⟩ := head_some (show b ≠ .nil by rintro rfl; cases inside)
  have orphan := orphan_made goes.trees.rep (step_grows taken (whole st reached)) first inside here owned there lost
  have grown := walk_grows (ends_step taken ends') (fun mid onward => whole mid (reached.trans (.head taken onward)))
  exact rep_orphan rep (headed.trans (goes.trees.head.symm.trans first)) (orphan.grows grown)

section merge
variable {s a : Placed Entry} (repSrc : Rep h none none none s) (repDst : Rep h none none none a) (separateDst : Separate a)
  (member : dst ∈ siblings a) (apart : ∀ p ∈ addresses s, p ∉ addresses a) (ends : Ends mergeStep (.loop h (head s) (some dst) 0 []) later)
include repSrc repDst separateDst member apart ends

theorem settled_kept (settled : Settled h s a dst) : Kept later s a := by
  have goes := start_goes repSrc repDst separateDst member apart
  obtain ⟨last,reached,done⟩ := ends_reaches ends
  obtain ⟨b,trees,-,blocks⟩ := reaches_goes reached goes (fun mid _ there _ => ⟨settled.attached mid there,settled.whole mid there⟩)
  obtain rfl := merge_done done
  have begun : Blocks (Opened h s a dst) a h := by
    intro p inside
    obtain ⟨label,listed,rfl⟩ := List.mem_map.mp inside
    obtain ⟨n,here,same⟩ := rep_entry repDst label listed
    refine ⟨n,here,?_⟩
    cases key : n.label.key with
    | none => exact .inr ⟨rfl,.inl ⟨inside,n,here,key⟩⟩
    | some k =>
        obtain ⟨v,valued⟩ := Option.ne_none_iff_exists'.mp (settled.values _ (cell_label repDst inside here) (by simp [HasKey,key]))
        exact .inl ⟨k,v,by rw [← key,← valued]⟩
  have known := blocks _ (fun mid q there stands => .inr ⟨mid,there,stands⟩) begun
  refine ⟨b,trees.trees.rep,trees.trees.separate,trees.trees.head,?_,fun p there bad => trees.trees.apart p bad there⟩
  intro e inside
  obtain ⟨p,mine,n,here,rfl⟩ := label_cell trees.trees.rep inside
  obtain ⟨n',here',filled | ⟨blank,opened⟩⟩ := known p mine
  · obtain rfl := Option.some.inj (here.symm.trans here')
    exact filled
  · obtain ⟨st,there,fills⟩ := settled.filled p opened
    obtain ⟨m,live,keyed⟩ := fills_stays fills (there.ends_after ends)
    obtain rfl := Option.some.inj (here'.symm.trans live)
    exact absurd blank keyed

theorem kept_settled (whole : ∀ st, Walk h s dst st → ¬Cuts st) (kept : Kept later s a) : Settled h s a dst := by
  have goes := start_goes repSrc repDst separateDst member apart
  have attached : ∀ st b, Walk h s dst st → Goes s a b st → ¬Severs st :=
    fun st b there goes' severs => severed_lost ends there goes' severs whole kept
  have clean : ∀ mid b, Walk h s dst mid → Goes s a b mid → ¬Severs mid ∧ ¬Cuts mid :=
    fun mid b there goes' => ⟨attached mid b there goes',whole mid there⟩
  obtain ⟨final,rep,-,headed,filled,-⟩ := kept
  -- a block that is in the tree at some state has a key and a value at the end
  have ended : ∀ st b p, Walk h s dst st → Goes s a b st → p ∈ addresses b → ∃ n, cell later p = some n ∧ Filled n.label := by
    intro st b p there goes' inside
    obtain ⟨last,reached,done⟩ := ends_reaches (there.ends_after ends)
    obtain ⟨b',trees,more,-⟩ := reaches_goes reached goes' (fun mid c onward => clean mid c (there.trans onward))
    obtain rfl := merge_done done
    obtain rfl := rep_same trees.trees.rep rep (headed.trans trees.trees.head.symm)
    obtain ⟨label,listed,rfl⟩ := List.mem_map.mp (more p inside)
    obtain ⟨n,here,same⟩ := rep_entry rep label listed
    exact ⟨n,here,filled _ (cell_label rep (more _ inside) here)⟩
  have somewhere : ∀ st b p, Walk h s dst st → Goes s a b st → p ∈ addresses b → Blank st.heap p → ∃ st, Walk h s dst st ∧ Fills st p := by
    intro st b p there goes' inside blank
    obtain ⟨n,here,filled'⟩ := ended st b p there goes' inside
    obtain ⟨last,reached,done⟩ := ends_reaches (there.ends_after ends)
    obtain rfl := merge_done done
    obtain ⟨mid,onward,fills⟩ := filled_somewhere reached blank (by
      rintro ⟨m,live,none'⟩
      obtain rfl := Option.some.inj (here.symm.trans live)
      exact filled'.hasKey none')
    exact ⟨mid,there.trans onward,fills⟩
  refine ⟨?_,?_,whole,?_⟩
  · intro e inside keyed
    obtain ⟨p,mine,n,here,rfl⟩ := label_cell repDst inside
    obtain ⟨m,there,same⟩ := key_stays ends here keyed
    obtain ⟨m',there',k,v,label⟩ := ended _ a p .refl goes mine
    obtain rfl := Option.some.inj (there.symm.trans there')
    rw [← same,label]
    simp
  · intro st there
    obtain ⟨b,goes',-⟩ := reaches_goes there goes clean
    exact attached st b there goes'
  · rintro p (⟨inside,blank⟩ | ⟨st,there,heap,src,depth,calls,rfl,blank⟩)
    · exact somewhere _ a p .refl goes inside blank
    · obtain ⟨b,goes',-⟩ := reaches_goes there goes clean
      exact somewhere _ b p there goes' (goes'.targets p (by simp [MergeState.targets])) blank

end merge

-- A network with a setting, and a nick.
def networkTree : Placed Entry := .one (0,⟨some "network".toList,some "efnet".toList⟩) (.one (1,⟨some "handlen".toList,some "9".toList⟩) .nil)

def nickTree (p : Nat) : Placed Entry := .one (p,⟨some "nick".toList,some "troll".toList⟩) .nil

def networkHeap : Heap Entry :=
  [some ⟨⟨some "network".toList,some "efnet".toList⟩,none,none,none,some 1⟩,
    some ⟨⟨some "handlen".toList,some "9".toList⟩,none,none,some 0,none⟩,
    some ⟨⟨some "nick".toList,some "troll".toList⟩,none,none,none,none⟩]

def networkMerged : Heap Entry :=
  [some ⟨⟨some "network".toList,some "efnet".toList⟩,none,none,none,some 1⟩,
    some ⟨⟨some "handlen".toList,some "9".toList⟩,none,none,some 0,none⟩,
    some ⟨⟨some "nick".toList,some "troll".toList⟩,none,some 3,none,none⟩,
    some ⟨⟨some "network".toList,some "efnet".toList⟩,some 2,none,none,some 4⟩,
    some ⟨⟨some "handlen".toList,some "9".toList⟩,none,none,some 3,none⟩]

theorem network_merges : tconfigMerge networkHeap (head networkTree) (some 2) networkMerged :=
  done_ends (show runFor mergeStep 5 _ = _ from rfl)

-- In between, the new block has a blank child.
def networkOpened : Heap Entry :=
  [some ⟨⟨some "network".toList,some "efnet".toList⟩,none,none,none,some 1⟩,
    some ⟨⟨some "handlen".toList,some "9".toList⟩,none,none,some 0,none⟩,
    some ⟨⟨some "nick".toList,some "troll".toList⟩,none,some 3,none,none⟩,
    some ⟨⟨some "network".toList,some "efnet".toList⟩,some 2,none,none,some 4⟩,
    some ⟨.blank,none,none,some 3,none⟩]

theorem network_walk (walk : Walk networkHeap networkTree 2 st) :
    st = .loop networkHeap (some 0) (some 2) 0 [] ∨ st = .loop networkOpened (some 1) (some 4) 1 [] ∨
      st = .climb networkMerged 1 (some 4) 1 [] ∨ st = .climb networkMerged 0 (some 3) 0 [] := by
  have opens : mergeStep (.loop networkHeap (some 0) (some 2) 0 []) = .next (.loop networkOpened (some 1) (some 4) 1 []) := rfl
  have fills : mergeStep (.loop networkOpened (some 1) (some 4) 1 []) = .next (.climb networkMerged 1 (some 4) 1 []) := rfl
  have climbs : mergeStep (.climb networkMerged 1 (some 4) 1 []) = .next (.climb networkMerged 0 (some 3) 0 []) := rfl
  have ends : mergeStep (.climb networkMerged 0 (some 3) 0 []) = .done networkMerged := rfl
  cases walk with
  | refl => exact .inl rfl
  | head taken walk =>
      obtain rfl := Outcome.next.inj (opens.symm.trans taken)
      cases walk with
      | refl => exact .inr (.inl rfl)
      | head taken walk =>
          obtain rfl := Outcome.next.inj (fills.symm.trans taken)
          cases walk with
          | refl => exact .inr (.inr (.inl rfl))
          | head taken walk =>
              obtain rfl := Outcome.next.inj (climbs.symm.trans taken)
              cases walk with
              | refl => exact .inr (.inr (.inr rfl))
              | head taken walk => cases ends.symm.trans taken

theorem no_blank {h : Heap Entry} (keyed : ∀ slot ∈ h, ∀ n ∈ slot, HasKey n.label) : ¬Blank h p := by
  rintro ⟨n,here,blank⟩
  exact keyed _ (List.mem_of_getElem? (Option.join_eq_some_iff.mp here)) n rfl blank

theorem clean_without (blankless : ∀ p, ¬Blank st.heap p) : ¬Severs st ∧ ¬Cuts st :=
  ⟨fun ⟨q,n,_,here,blank,_⟩ => blankless q ⟨n,here,blank⟩,fun ⟨q,n,here,blank,_⟩ => blankless q ⟨n,here,blank⟩⟩

theorem network_settled : Settled networkHeap networkTree (nickTree 2) 2 := by
  have blankless : ∀ p, ¬Blank networkHeap p := fun p => no_blank (by simp [networkHeap,HasKey])
  have blankless' : ∀ p, ¬Blank networkMerged p := fun p => no_blank (by simp [networkMerged,HasKey])
  have clean : ∀ st, Walk networkHeap networkTree 2 st → ¬Severs st ∧ ¬Cuts st := by
    intro st walk
    rcases network_walk walk with rfl | rfl | rfl | rfl
    · exact clean_without blankless
    · have childless : ∀ q, ¬Adds (.loop networkOpened (some 1) (some 4) 1 []) true q := by
        intro q adds
        cases adds with
        | block here _ _ _ => cases here
      constructor
      · rintro ⟨q,n,adds,-⟩
        exact childless q adds
      rintro ⟨q,n,here,blank,⟨⟨-,-,walked⟩,more⟩ | ⟨adds,-⟩⟩
      · obtain rfl : 4 = q := Option.some.inj walked
        cases here
        exact more rfl
      · exact childless q adds
    · exact clean_without blankless'
    · exact clean_without blankless'
  refine ⟨?_,fun st walk => (clean st walk).1,fun st walk => (clean st walk).2,?_⟩
  · simp [nickTree,bare,Forest.one,Forest.map,Forest.labels]
  · rintro p (⟨-,blank⟩ | ⟨st,walk,heap,src,depth,calls,rfl,blank⟩)
    · exact absurd blank (blankless p)
    · rcases network_walk walk with same | same | same | same
      · cases same
        exact absurd blank (blankless 2)
      · cases same
        exact ⟨_,walk,false,_,.leaf rfl ⟨4,some 4,rfl,rfl⟩ rfl,rfl,rfl⟩
      · cases same
      · cases same

end Trollbot.Tconfig

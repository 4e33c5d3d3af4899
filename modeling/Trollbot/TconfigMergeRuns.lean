import Trollbot.TconfigMerge

namespace Trollbot.Tconfig
open CBuffer Linked Machine

theorem key_filled {e : Entry} (key : e.key ≠ none) : e ≠ .blank := by
  rintro rfl
  exact key rfl

theorem Keyed.key (keyed : Keyed e) : e.key ≠ none := by
  obtain ⟨key,value,rfl,-⟩ := keyed
  simp

-- A level whose content has keys is a blank block or all its blocks have keys.
theorem level_shape (level : Level h upper a dst) (keyed : ∀ e ∈ (base a).row, e.key ≠ none) :
    (∃ p, a = .one (p,.blank) .nil) ∨ (base a = bare a ∧ ∀ label ∈ a.row, label.2.key ≠ none) := by
  by_cases blank : bare a = .one .blank .nil
  · cases a with
    | nil => cases level.member
    | cons label children rest =>
        obtain ⟨p,e⟩ := label
        simp only [bare_cons,Forest.one,Forest.cons.injEq] at blank
        obtain ⟨rfl,noChildren,noRest⟩ := blank
        refine .inl ⟨p,?_⟩
        cases children with
        | cons _ _ _ => cases noChildren
        | nil =>
            cases rest with
            | cons _ _ _ => cases noRest
            | nil => rfl
  · have same : base a = bare a := by rw [base,if_neg blank]
    refine .inr ⟨same,?_⟩
    intro label member
    refine keyed label.2 ?_
    rw [same,bare,Forest.row_map]
    exact List.mem_map_of_mem member

theorem search_misses (level : Level h upper a dst) (misses : ∀ e ∈ (bare a).row, found e = false) :
    ∃ first passed, rewind h dst = some first ∧ walkOn h found h.length (some first) none = some (none,passed) := by
  have back := rewind_head level.rep level.separate level.member
  have none' : ∀ label ∈ a.row, found label.2 = false := by
    intro label member
    refine misses label.2 ?_
    rw [bare,Forest.row_map]
    exact List.mem_map_of_mem member
  have search := walkOn_none level.rep level.separate none' none
  cases a with
  | nil => cases level.member
  | cons label children rest => exact ⟨label.1,_,back,search⟩

theorem search_hits (level : Level h upper a dst) (present : ∃ e ∈ (bare a).row, found e = true) :
    ∃ (first : Nat) (x : Placed Entry) (t : Nat) (e : Entry) (children y : Placed Entry) (passed : Option Nat),
      a = x.append (.cons (t,e) children y) ∧ found e = true ∧ (∀ label ∈ x.row, found label.2 = false) ∧
      rewind h dst = some first ∧ walkOn h found h.length (some first) none = some (some t,passed) := by
  obtain ⟨e,member,hit⟩ := present
  rw [bare,Forest.row_map] at member
  obtain ⟨label,inside,rfl⟩ := List.mem_map.mp member
  obtain ⟨x,⟨t,e⟩,children,y,rfl,misses,hit'⟩ := Forest.row_first
    (show ∃ label ∈ a.row, (fun label : Nat × Entry => found label.2) label = true from ⟨label,inside,hit⟩)
  have back := rewind_head level.rep level.separate level.member
  have search := walkOn_found level.rep level.separate misses hit' none
  cases x with
  | nil => exact ⟨t,.nil,t,e,children,y,_,rfl,hit',misses,back,search⟩
  | cons label below rest => exact ⟨label.1,.cons label below rest,t,e,children,y,_,rfl,hit',misses,back,search⟩

theorem search_none (level : Level h upper a dst) (keyed : ∀ e ∈ (base a).row, e.key ≠ none) (blank : found Entry.blank = false)
    (misses : ∀ e ∈ (base a).row, found e = false) :
    ∃ first passed, rewind h dst = some first ∧ walkOn h found h.length (some first) none = some (none,passed) := by
  refine search_misses level ?_
  intro e member
  rcases level_shape level keyed with ⟨p,rfl⟩ | ⟨same,-⟩
  · obtain rfl : e = .blank := by simpa [Forest.one,Forest.row] using member
    exact blank
  · exact misses e (same ▸ member)

theorem search_found (level : Level h upper a dst) (present : ∃ e ∈ (base a).row, found e = true) :
    ∃ (first : Nat) (x : Placed Entry) (t : Nat) (e : Entry) (children y : Placed Entry) (passed : Option Nat),
      a = x.append (.cons (t,e) children y) ∧ base a = bare a ∧ found e = true ∧ (∀ label ∈ x.row, found label.2 = false) ∧
      rewind h dst = some first ∧ walkOn h found h.length (some first) none = some (some t,passed) := by
  have same : base a = bare a := by
    unfold base at present ⊢
    split
    · rename_i blank
      rw [if_pos blank] at present
      obtain ⟨e,member,-⟩ := present
      cases member
    · rfl
  rw [same] at present
  obtain ⟨first,x,t,e,children,y,passed,split',hit,misses,back,search⟩ := search_hits level present
  exact ⟨first,x,t,e,children,y,passed,split',same,hit,misses,back,search⟩

theorem place_puts (level : Level h upper a dst) (keyed : ∀ e ∈ (base a).row, e.key ≠ none) (e : Entry) :
    ∃ (later : Heap Entry) (x : Placed Entry) (q : Nat), place h dst e = some (later,q) ∧
      Inserted h upper a e later x q ∧ ∀ label ∈ x.row, label.2 ≠ .blank := by
  rcases level_shape level keyed with ⟨p,rfl⟩ | ⟨-,filled⟩
  · obtain ⟨here,inserted⟩ := put_blank level e
    obtain rfl : dst = p := by simpa [Forest.one,siblings,Forest.row] using level.member
    refine ⟨_,.nil,dst,?_,inserted,by simp [Forest.row]⟩
    obtain ⟨fuel,length⟩ : ∃ fuel, h.length = fuel + 1 := ⟨h.length - 1,by have := cell_bound here; omega⟩
    have walk : walkEnd h (fun other => other.key.isSome) h.length dst = some dst := by
      simp [length,walkEnd,here]
    simp only [place,walk,here,Entry.blank,Option.bind_eq_bind,Option.bind_some]
  · obtain ⟨q,n,last,here,⟨label,member,same⟩,inserted⟩ := put_last level (fun label member => key_filled (filled label member)) e
    refine ⟨_,a,h.length,?_,inserted,fun label member => key_filled (filled label member)⟩
    have walk : walkEnd h (fun other => other.key.isSome) h.length dst = some q := by
      rw [← last]
      refine walkEnd_level level.rep level.separate level.member ?_
      intro label member
      exact Option.isSome_iff_ne_none.mpr (filled label member)
    obtain ⟨key,keyed'⟩ : ∃ key, n.label.key = some key := by
      rw [← same]
      exact Option.ne_none_iff_exists'.mp (filled label member)
    simp only [place,walk,here,keyed',Option.bind_eq_bind,Option.bind_some]

theorem addLeaf_puts (level : Level h upper a dst) (keyed : ∀ e ∈ (base a).row, e.key ≠ none) (key value : Str) :
    ∃ (later : Heap Entry) (x : Placed Entry) (q : Nat), addLeaf h dst key value = some (later,q) ∧
      Inserted h upper a ⟨some (plainKey key),some value⟩ later x q ∧ ∀ label ∈ x.row, label.2 ≠ .blank := by
  obtain ⟨later,x,q,placed,inserted,filled⟩ := place_puts level keyed ⟨some (plainKey key),some value⟩
  obtain ⟨here,-⟩ := rep_node inserted.rep
  refine ⟨later,x,q,?_,inserted,filled⟩
  have stored := store_same here
  simp only [head_nil,Option.or_none] at here stored
  simp only [addLeaf,placed,here,Option.bind_eq_bind,Option.bind_some,stored]

theorem addBlock_puts (level : Level h upper a dst) (keyed : ∀ e ∈ (base a).row, e.key ≠ none) (room : base a ≠ .nil ∨ upper = none) (key value : Str) :
    ∃ (later : Heap Entry) (x : Placed Entry) (q c : Nat), addBlock h dst key value = some (later,c) ∧
      Rep later none upper none (x.append (.one (q,⟨some key,some value⟩) (.one (c,.blank) .nil))) ∧
      Replaces h a (x.append (.one (q,⟨some key,some value⟩) (.one (c,.blank) .nil))) ∧
      Keeps (addresses a) h later ∧ Level later (some q) (.one (c,.blank) .nil) c ∧ bare x = base a ∧
      ∀ label ∈ x.row, label.2 ≠ .blank := by
  obtain ⟨middle,x,q,placed,inserted,filled⟩ := place_puts level keyed ⟨some key,some value⟩
  obtain ⟨here,-⟩ := rep_node inserted.rep
  have noOwner : owner upper x = none := by
    cases x with
    | nil =>
        rcases room with some' | top
        · exact absurd inserted.before.symm some'
        · exact top
    | cons label children rest => rfl
  have opened := child_opens inserted.rep inserted.separate here rfl
  refine ⟨_,x,q,middle.length,?_,opened.1,inserted.replaces.trans opened.2.1 inserted.keeps.grows,?_,opened.2.2.2,
    inserted.before,filled⟩
  · simp only [addBlock,placed,here,Option.bind_eq_bind,Option.bind_some,noOwner]
  · exact inserted.keeps.trans opened.2.2.1 inserted.replaces.fresh

-- What a walk over the blocks `b` of src does to a level of dst.
structure Merges (h : Heap Entry) (upper : Option Nat) (a : Placed Entry) (made : Forest Entry) (later : Heap Entry)
    (new : Placed Entry) : Prop where
  rep : Rep later none upper none new
  replaces : Replaces h a new
  keeps : Keeps (addresses a) h later
  content : base new = made

-- Where the loop is when a level of src is done: it climbs from its last block, or it has come to
-- the end after a '*' block.
inductive Finished (more : Bool) (h : Heap Entry) (last : Option Nat) (a : Placed Entry) (depth : Nat) (calls : List Call) :
    MergeState → Prop where
  | climbing : last = some q → dst ∈ siblings a → Finished more h last a depth calls (.climb h q (some dst) depth calls)
  | stopped : more = false → Finished more h last a depth calls (.loop h none dst deep calls)

theorem Merges.trans (first : Merges h upper a made middle between) (second : Merges middle upper between final later new) :
    Merges h upper a final later new :=
  ⟨second.rep,first.replaces.trans second.replaces first.keeps.grows,first.keeps.trans second.keeps first.replaces.fresh,
    second.content⟩

theorem Merges.level (merges : Merges h upper a made later new) (member : dst ∈ siblings new) : Level later upper new dst :=
  ⟨merges.rep,merges.replaces.separate,member⟩

theorem source_frame {s a new : Placed Entry} (replaces : Replaces h a new) (keeps : Keeps (addresses a) h later)
    (rep : Rep h prev parent none s) (apart : ∀ p ∈ addresses s, p ∉ addresses a) :
    Rep later prev parent none s ∧ ∀ p ∈ addresses s, p ∉ addresses new := by
  refine ⟨rep_frame (fun p member => keeps.same p (rep_live rep member) (apart p member)) rep,?_⟩
  intro p member bad
  rcases replaces.fresh p bad with old | new'
  · exact apart p member old
  · have := rep_live rep member
    omega

theorem Merges.source {s : Placed Entry} (merges : Merges h upper a made later new) (rep : Rep h prev parent none s)
    (apart : ∀ p ∈ addresses s, p ∉ addresses a) :
    Rep later prev parent none s ∧ ∀ p ∈ addresses s, p ∉ addresses new :=
  source_frame merges.replaces merges.keeps rep apart

-- A level of src ends: both cursors go up to the owners.
theorem climb_level {ch new : Placed Entry} (rep : Rep h none (some p) none ch) (separate : Separate ch)
    (last : lastOf none ch = some q) (level : Level h (some t) new dst) (depth : Nat) (calls : List Call) :
    mergeStep (.climb h q (some dst) (depth + 1) calls) = .next (.climb h p (some t) depth calls) := by
  obtain ⟨n,here,ended⟩ := last_cell rep last
  have back := rewind_head level.rep level.separate level.member
  have first : ∃ f, rewind h q = some f ∧ (cell h f).bind (·.parent) = some p := by
    cases ch with
    | nil => cases last
    | cons label below rest =>
        obtain ⟨c,e⟩ := label
        obtain ⟨q',same,member⟩ := lastOf_cons none (c,e) below rest
        obtain rfl := Option.some.inj (last.symm.trans same)
        refine ⟨c,rewind_head rep separate member,?_⟩
        simp [rep.1]
  obtain ⟨f,rewound,parent⟩ := first
  obtain ⟨m,live,up⟩ := Option.bind_eq_some_iff.mp parent
  cases new with
  | nil => cases level.member
  | cons label below rest =>
      obtain ⟨c,e⟩ := label
      have top := level.rep.1
      simp only [mergeStep,here,ended,rewound,back,live,up,top,head_cons,Option.bind_some,Nat.add_one_ne_zero,if_false,
        Nat.add_sub_cancel]

-- The loop gets the level `s` of src right, wherever it starts on it.
def Walks (s : Placed Entry) : Prop :=
  ∀ {more : Bool} {h : Heap Entry} {prev parent upper : Option Nat} {a : Placed Entry} {dst : Nat} (depth : Nat) (calls : List Call),
    Rep h prev parent none s → Separate s → s ≠ .nil → Level h upper a dst → (∀ p ∈ addresses s, p ∉ addresses a) →
    (∀ e ∈ (bare s).labels, Keyed e) → (∀ e ∈ (base a).labels, Keyed e) → Mergeable more (bare s) (base a) →
    ∃ (later : Heap Entry) (new : Placed Entry) (final : MergeState),
      Reaches mergeStep (.loop h (head s) (some dst) depth calls) final ∧
      Finished more later (lastOf none s) new depth calls final ∧ Merges h upper a (merged (bare s) (base a)) later new

-- At depth 0 the end of a level ends the call.
theorem finished_returns {ch : Placed Entry} (rep : Rep h prev parent none ch) (finished : Finished more h (lastOf none ch) a 0 calls final) :
    mergeStep final = returned h calls := by
  cases finished with
  | stopped _ => rfl
  | climbing last _ =>
      obtain ⟨n,here,ended⟩ := last_cell rep last
      simp [mergeStep,here,ended]

-- A call for one of the blocks that a '*' block stands for.
theorem call_block {ch x below y : Placed Entry} (dst depth : Nat) (calls : List Call) (walks : Walks ch) (source : Rep h none (some p) none ch) (separate : Separate ch)
    (some' : ch ≠ .nil) (keyedSrc : ∀ e ∈ (bare ch).labels, Keyed e)
    (rep : Rep h none upper none (x.append (.cons (t,f) below y))) (separateDst : Separate (x.append (.cons (t,f) below y)))
    (apart : ∀ q ∈ addresses ch, q ∉ addresses (x.append (.cons (t,f) below y))) (member : c ∈ siblings below)
    (keyed : ∀ e ∈ (base below).labels, Keyed e) (good : Mergeable false (bare ch) (base below)) :
    ∃ (later : Heap Entry) (new : Placed Entry),
      Reaches mergeStep (.loop h (head ch) (some c) 0 (⟨p,dst,t,depth⟩ :: calls)) (.wild later p dst (head y) depth calls) ∧
      Rep later none upper none (x.append (.cons (t,f) new y)) ∧
      Replaces h (x.append (.cons (t,f) below y)) (x.append (.cons (t,f) new y)) ∧
      Keeps (addresses (x.append (.cons (t,f) below y))) h later ∧ base new = merged (bare ch) (base below) := by
  have inside : ∀ q ∈ addresses below, q ∈ addresses (x.append (.cons (t,f) below y)) := by
    intro q there
    simp [there]
  have level : Level h (some t) below c := ⟨(rep_node rep).2,(separate_node separateDst).1,member⟩
  have apartBelow : ∀ q ∈ addresses ch, q ∉ addresses below := fun q there bad => apart q there (inside q bad)
  obtain ⟨later,new,final,reached,finished,merges⟩ := walks 0 (⟨p,dst,t,depth⟩ :: calls) source separate some'
    level apartBelow keyedSrc keyed good
  have whole := rep_children rep separateDst merges.keeps merges.rep merges.replaces
  have here := (rep_node whole).1
  have back : mergeStep final = .next (.wild later p dst (head y) depth calls) := by
    rw [finished_returns (merges.source source apartBelow).1 finished]
    simp [returned,here]
  refine ⟨later,new,reached.trans (.one back),whole,?_,merges.keeps.wider inside,merges.content⟩
  exact replaces_children rep separateDst merges.replaces.separate merges.replaces.fresh f

theorem keyed_filled {a : Placed Entry} (keyed : ∀ e ∈ (bare a).labels, Keyed e) : base a = bare a := by
  refine base_filled ?_
  intro label member
  refine key_filled (keyed label.2 ?_).key
  rw [bare,Forest.labels_map]
  exact List.mem_map_of_mem (Forest.row_labels member)

-- The loop over the blocks of a level of dst; those of `x` have been passed.
theorem wild_level {ch rest x y : Placed Entry} (dst depth : Nat) (calls : List Call) (walks : Walks ch) (source : Rep h prev parent none (.cons (p,e) ch rest))
    (separate : Separate ch) (some' : ch ≠ .nil) (keyedSrc : ∀ f ∈ (bare ch).labels, Keyed f)
    (rep : Rep h none upper none (x.append y)) (separateDst : Separate (x.append y))
    (apart : ∀ q ∈ addresses (.cons (p,e) ch rest), q ∉ addresses (x.append y)) (keyed : ∀ f ∈ (bare y).labels, Keyed f)
    (good : ∀ block ∈ (bare y).blocks, block.1.key = e.key →
      (block.2 = .nil → HasLeaf (bare ch)) ∧ Mergeable false (bare ch) block.2) :
    ∃ (later : Heap Entry) (new : Placed Entry),
      Reaches mergeStep (.wild h p dst (head y) depth calls) (.wild later p dst none depth calls) ∧
      Rep later none upper none (x.append new) ∧ Replaces h (x.append y) (x.append new) ∧
      Keeps (addresses (x.append y)) h later ∧ siblings new = siblings y ∧
      bare new = onMatching (fun other => other.key == e.key) (fun found => merged (bare ch) found) (bare y) := by
  induction y generalizing h x with
  | nil => exact ⟨h,.nil,.refl,rep,.refl h separateDst,.refl _ h,rfl,rfl⟩
  | cons label below y _ ih =>
      obtain ⟨t,f⟩ := label
      have here := (rep_node rep).1
      have srcHere := source.1
      obtain ⟨key,value,rfl,-⟩ := keyed f (by simp [Forest.labels])
      have keyedBelow : ∀ g ∈ (bare below).labels, Keyed g := fun g member => keyed g (by simp [Forest.labels,member])
      have keyedRest : ∀ g ∈ (bare y).labels, Keyed g := fun g member => keyed g (by simp [Forest.labels,member])
      have goodRest : ∀ block ∈ (bare y).blocks, block.1.key = e.key →
          (block.2 = .nil → HasLeaf (bare ch)) ∧ Mergeable false (bare ch) block.2 :=
        fun block member => good block (by simp [Forest.blocks,member])
      have regroup : ∀ new, (x.append (.one (t,⟨some key,some value⟩) new)).append y =
          x.append (.cons (t,⟨some key,some value⟩) new y) := by
        simp [Forest.one,Forest.append]
      by_cases same : e.key = some key
      · -- the block is entered; a missing first child is made
        have entered : ∃ (opened : Heap Entry) (below' : Placed Entry) (c : Nat),
            mergeStep (.wild h p dst (some t) depth calls) =
              .next (.loop opened (head ch) (some c) 0 (⟨p,dst,t,depth⟩ :: calls)) ∧
            Rep opened none upper none (x.append (.cons (t,⟨some key,some value⟩) below' y)) ∧
            Replaces h (x.append (.cons (t,⟨some key,some value⟩) below y)) (x.append (.cons (t,⟨some key,some value⟩) below' y)) ∧
            Keeps (addresses (x.append (.cons (t,⟨some key,some value⟩) below y))) h opened ∧ c ∈ siblings below' ∧
            base below' = bare below := by
          cases below with
          | nil =>
              obtain ⟨repOpened,replaces,keeps,level⟩ := child_opens rep separateDst here rfl
              refine ⟨_,_,h.length,?_,repOpened,replaces,keeps,level.member,base_blank _⟩
              simp [mergeStep,srcHere,here,same]
          | cons first more final =>
              refine ⟨h,_,first.1,?_,rep,.refl h separateDst,.refl _ h,by simp [siblings,Forest.row],keyed_filled keyedBelow⟩
              simp [mergeStep,srcHere,here,same]
        obtain ⟨opened,below',c,taken,repOpened,replaces,keeps,member,content⟩ := entered
        obtain ⟨leaf,goodBelow⟩ := good (⟨some key,some value⟩,bare below) (by simp [Forest.blocks]) same.symm
        obtain ⟨sourceOpened,apartOpened⟩ := source_frame replaces keeps source apart
        rw [← content] at goodBelow
        obtain ⟨middle,inside,called,repMiddle,replacesMiddle,keepsMiddle,filled⟩ := call_block dst depth calls
          walks sourceOpened.2.1 separate some' keyedSrc repOpened replaces.separate
          (fun q there => apartOpened q (by simp [there])) member (by rw [content]; exact keyedBelow) goodBelow
        obtain ⟨sourceMiddle,apartMiddle⟩ := source_frame replacesMiddle keepsMiddle sourceOpened apartOpened
        have bareInside : bare inside = merged (bare ch) (bare below) := by
          rw [← content]
          refine base_some filled ?_
          cases below with
          | nil => exact merged_some (leaf rfl) _
          | cons first more final =>
              rw [content]
              exact within_some (within_merged _ _) (by simp [bare,Forest.map])
        rw [← regroup] at repMiddle apartMiddle
        have separateMiddle := replacesMiddle.separate
        rw [← regroup] at separateMiddle
        obtain ⟨later,new,reached,repLater,replacesLater,keepsLater,row,others⟩ :=
          ih sourceMiddle repMiddle separateMiddle apartMiddle keyedRest goodRest
        have throughMiddle := replaces.trans replacesMiddle keeps.grows
        have keptMiddle := keeps.trans keepsMiddle replaces.fresh
        rw [regroup] at replacesLater keepsLater
        have hit : (some key == e.key) = true := by simp [same]
        refine ⟨later,.cons (t,⟨some key,some value⟩) inside new,.head taken (called.trans reached),?_,?_,?_,?_,?_⟩
        · simpa [Forest.one,Forest.append] using repLater
        · have whole := throughMiddle.trans replacesLater keptMiddle.grows
          simpa [Forest.one,Forest.append] using whole
        · exact keptMiddle.trans keepsLater throughMiddle.fresh
        · simp only [siblings,Forest.row,List.map_cons] at row ⊢
          rw [row]
        · simp [onMatching,others,hit,bareInside]
      · have taken : mergeStep (.wild h p dst (some t) depth calls) = .next (.wild h p dst (head y) depth calls) := by
          simp [mergeStep,srcHere,here,same]
        rw [← regroup] at rep separateDst apart
        obtain ⟨later,new,reached,repLater,replaces,keeps,row,content⟩ := ih source rep separateDst apart keyedRest goodRest
        have differs : (some key == e.key) = false := by simpa using fun bad => same bad.symm
        refine ⟨later,.cons (t,⟨some key,some value⟩) below new,.head taken reached,?_,?_,?_,?_,?_⟩
        · simpa [Forest.one,Forest.append] using repLater
        · simpa [Forest.one,Forest.append] using replaces
        · simpa [Forest.one,Forest.append] using keeps
        · simp only [siblings,Forest.row,List.map_cons] at row ⊢
          rw [row]
        · simp [onMatching,content,differs]

theorem merged_keyed (keyedSrc : ∀ e ∈ b.labels, Keyed e) (keyed : ∀ e ∈ dst.labels, Keyed e) :
    ∀ e ∈ (merged b dst).labels, Keyed e := by
  intro e member
  rcases merged_labels b dst e member with new | old
  · exact keyedSrc e new
  · exact keyed e old

-- The first block of a level of src is done, and the loop goes on with the others.
theorem walk_rest {s : Placed Entry} (depth : Nat) (calls : List Call) (walks : Walks s) (some' : s ≠ .nil) (source : Rep h prev parent none s)
    (separate : Separate s) (apart : ∀ q ∈ addresses s, q ∉ addresses a) (keyedSrc : ∀ f ∈ (bare s).labels, Keyed f)
    (merges : Merges h upper a made middle between) (member : dst ∈ siblings between) (keyed : ∀ f ∈ made.labels, Keyed f)
    (good : Mergeable more (bare s) made) :
    ∃ (later : Heap Entry) (new : Placed Entry) (final : MergeState),
      Reaches mergeStep (.loop middle (head s) (some dst) depth calls) final ∧
      Finished more later (lastOf none s) new depth calls final ∧ Merges h upper a (merged (bare s) made) later new := by
  obtain ⟨sourceMiddle,apartMiddle⟩ := merges.source source apart
  rw [← merges.content] at keyed good ⊢
  obtain ⟨later,new,final,reached,finished,rest⟩ := walks depth calls sourceMiddle separate some' (merges.level member) apartMiddle
    keyedSrc keyed good
  exact ⟨later,new,final,reached,finished,merges.trans rest⟩

theorem walk_climb {rest : Placed Entry} (depth : Nat) (calls : List Call) (walks : Walks rest) (source : Rep h prev parent none (.cons (p,e) ch rest))
    (separate : Separate rest) (apart : ∀ q ∈ addresses (.cons (p,e) ch rest), q ∉ addresses a)
    (keyedSrc : ∀ f ∈ (bare (.cons (p,e) ch rest)).labels, Keyed f) (keyed : ∀ f ∈ (base a).labels, Keyed f)
    (merges : Merges h upper a (merged (.one e (bare ch)) (base a)) middle between) (member : dst ∈ siblings between)
    (good : Mergeable more (bare (.cons (p,e) ch rest)) (base a)) :
    ∃ (later : Heap Entry) (new : Placed Entry) (final : MergeState),
      Reaches mergeStep (.climb middle p (some dst) depth calls) final ∧
      Finished more later (lastOf none (.cons (p,e) ch rest)) new depth calls final ∧
      Merges h upper a (merged (bare (.cons (p,e) ch rest)) (base a)) later new := by
  have here := (merges.source source apart).1.1
  cases rest with
  | nil =>
      refine ⟨middle,between,_,.refl,.climbing rfl member,?_⟩
      rw [bare_cons,merged_cons]
      exact merges
  | cons second below others =>
      have keyedMade : ∀ f ∈ (merged (.one e (bare ch)) (base a)).labels, Keyed f := by
        refine merged_keyed ?_ keyed
        intro f inside
        refine keyedSrc f ?_
        simp only [bare_cons,Forest.one,Forest.labels,List.append_nil,List.mem_cons,List.mem_append] at inside ⊢
        tauto
      obtain ⟨later,new,final,reached,finished,rest'⟩ := walk_rest depth calls walks (by simp)
        source.2.2 separate
        (fun q inside => apart q (by simp [inside])) (fun f inside => keyedSrc f (Forest.labels_after inside)) merges member
        keyedMade (mergeable_rest good)
      have taken : mergeStep (.climb middle p (some dst) depth calls) =
          .next (.loop middle (head (.cons second below others)) (some dst) depth calls) := by
        simp [mergeStep,here]
      refine ⟨later,new,final,.head taken reached,finished,?_⟩
      rw [bare_cons,merged_cons]
      exact rest'

-- A block of dst is entered with the children of the src block `p`, on the way to the blocks after it.
theorem walk_below {ch rest x below y : Placed Entry} (depth : Nat) (calls : List Call) (walksBelow : Walks ch) (walks : Walks rest)
    (source : Rep h prev parent none (.cons (p,e) ch rest)) (separate : Separate (.cons (p,e) ch rest)) (some' : ch ≠ .nil)
    (apart : ∀ q ∈ addresses (.cons (p,e) ch rest), q ∉ addresses a)
    (keyedSrc : ∀ f ∈ (bare (.cons (p,e) ch rest)).labels, Keyed f) (keyed : ∀ f ∈ (base a).labels, Keyed f)
    (rep : Rep opened none upper none (x.append (.cons (t,f) below y))) (replaces : Replaces h a (x.append (.cons (t,f) below y)))
    (keeps : Keeps (addresses a) h opened) (member : c ∈ siblings below) (keyedBelow : ∀ f ∈ (base below).labels, Keyed f)
    (goodBelow : Mergeable (more || decide (bare rest ≠ .nil)) (bare ch) (base below))
    (good : Mergeable more (bare (.cons (p,e) ch rest)) (base a))
    (content : ∀ new, base new = merged (bare ch) (base below) →
      base (x.append (.cons (t,f) new y)) = merged (.one e (bare ch)) (base a)) :
    ∃ (later : Heap Entry) (new : Placed Entry) (final : MergeState),
      Reaches mergeStep (.loop opened (head ch) (some c) (depth + 1) calls) final ∧
      Finished more later (lastOf none (.cons (p,e) ch rest)) new depth calls final ∧
      Merges h upper a (merged (bare (.cons (p,e) ch rest)) (base a)) later new := by
  obtain ⟨sourceOpened,apartOpened⟩ := source_frame replaces keeps source apart
  have separates : Separate ch ∧ Separate rest := separate_parts separate
  have apartBelow : ∀ q ∈ addresses ch, q ∉ addresses below :=
    fun q inside bad => apartOpened q (by simp [inside]) (by simp [bad])
  have level : Level opened (some t) below c := ⟨(rep_node rep).2,(separate_node replaces.separate).1,member⟩
  obtain ⟨later,new,final,reached,finished,merges⟩ := walksBelow (depth + 1) calls sourceOpened.2.1
    separates.1 some' level apartBelow (fun g inside => keyedSrc g (Forest.labels_below inside)) keyedBelow goodBelow
  have repLater := rep_children rep replaces.separate merges.keeps merges.rep merges.replaces
  have closes := replaces_children rep replaces.separate merges.replaces.separate merges.replaces.fresh f
  have whole : Merges h upper a (merged (.one e (bare ch)) (base a)) later (x.append (.cons (t,f) new y)) := by
    refine ⟨repLater,replaces.trans closes keeps.grows,?_,content new merges.content⟩
    refine keeps.trans merges.keeps ?_
    intro q inside
    exact replaces.fresh q (by simp [inside])
  have inLevel : t ∈ siblings (x.append (.cons (t,f) new y)) := by simp [siblings,Forest.row]
  cases finished with
  | climbing last inside =>
      have up := climb_level (merges.source sourceOpened.2.1 apartBelow).1 separates.1 last (merges.level inside) depth calls
      obtain ⟨end',new',final',reached',finished',merges'⟩ := walk_climb depth calls walks source
        separates.2 apart keyedSrc keyed whole inLevel good
      exact ⟨end',new',final',reached.trans (.head up reached'),finished',merges'⟩
  | stopped idle =>
      simp only [Bool.or_eq_false_iff,decide_eq_false_iff_not,Decidable.not_not] at idle
      refine ⟨later,x.append (.cons (t,f) new y),_,reached,.stopped idle.1,?_⟩
      rw [bare_cons,merged_cons,idle.2]
      exact whole

theorem walks_leaf {rest : Placed Entry} (depth : Nat) (calls : List Call) (walks : Walks rest) (source : Rep h prev parent none (.cons (p,e) .nil rest))
    (separate : Separate rest) (level : Level h upper a dst) (apart : ∀ q ∈ addresses (.cons (p,e) .nil rest), q ∉ addresses a)
    (keyedSrc : ∀ f ∈ (bare (.cons (p,e) .nil rest)).labels, Keyed f) (keyed : ∀ f ∈ (base a).labels, Keyed f)
    (good : Mergeable more (bare (.cons (p,e) .nil rest)) (base a)) :
    ∃ (later : Heap Entry) (new : Placed Entry) (final : MergeState),
      Reaches mergeStep (.loop h (some p) (some dst) depth calls) final ∧
      Finished more later (lastOf none (.cons (p,e) .nil rest)) new depth calls final ∧
      Merges h upper a (merged (bare (.cons (p,e) .nil rest)) (base a)) later new := by
  have here := source.1
  obtain ⟨key,value,rfl,plain⟩ := keyedSrc e (by simp [Forest.labels])
  have keyedRow : ∀ f ∈ (base a).row, f.key ≠ none := fun f member => (keyed f (Forest.row_labels member)).key
  have blank : (sameKey key .blank && key.head? != some '@') = false := rfl
  have matchKey : ∀ f : Entry, (sameKey key f && key.head? != some '@') = (f.key == some key) := by
    simp [sameKey,plain]
  by_cases present : hasKey (some key) (base a) = true
  · have member : ∃ f ∈ (base a).row, (sameKey key f && key.head? != some '@') = true := by
      simpa only [hasKey,List.any_eq_true,matchKey] using present
    obtain ⟨first,x,t,f,children,y,passed,-,-,-,-,back,search⟩ := search_found level member
    have taken : mergeStep (.loop h (some p) (some dst) depth calls) = .next (.climb h p (some dst) depth calls) := by
      simp [mergeStep,here,back,search]
    have same : Merges h upper a (merged (.one ⟨some key,some value⟩ (bare .nil)) (base a)) h a := by
      refine ⟨level.rep,.refl h level.separate,.refl _ h,?_⟩
      exact (if_pos present).symm
    obtain ⟨later,new,final,reached,finished,merges⟩ := walk_climb depth calls walks source separate apart
      keyedSrc keyed same level.member good
    exact ⟨later,new,final,.head taken reached,finished,merges⟩
  · have misses : ∀ f ∈ (base a).row, (sameKey key f && key.head? != some '@') = false := by
      intro f member
      rw [matchKey]
      by_contra hit
      exact present (List.any_eq_true.mpr ⟨f,member,by simpa using hit⟩)
    obtain ⟨first,passed,back,search⟩ := search_none level keyedRow blank misses
    obtain ⟨filled,x,q,added,inserted,others⟩ := addLeaf_puts level keyedRow key value
    have same : plainKey key = key := by simp [plainKey,plain]
    rw [same] at inserted
    have taken : mergeStep (.loop h (some p) (some dst) depth calls) = .next (.climb filled p (some q) depth calls) := by
      simp [mergeStep,here,back,search,added]
    have grown : Merges h upper a (merged (.one ⟨some key,some value⟩ (bare .nil)) (base a)) filled
        (x.append (.one (q,⟨some key,some value⟩) .nil)) := by
      refine ⟨inserted.rep,inserted.replaces,inserted.keeps,?_⟩
      rw [base_last others (by simp [Entry.blank]),inserted.before]
      exact (if_neg present).symm
    obtain ⟨later,new,final,reached,finished,merges⟩ := walk_climb depth calls walks source separate apart
      keyedSrc keyed grown inserted.member good
    exact ⟨later,new,final,.head taken reached,finished,merges⟩

-- A level keeps its row under a '*' block, a blank one too.
theorem base_onMatching {a new : Placed Entry} (level : Level h upper a dst) (keyed : ∀ e ∈ (base a).row, e.key ≠ none)
    (blank : hit Entry.blank = false) (content : bare new = onMatching hit f (bare a)) :
    base new = onMatching hit f (base a) := by
  rcases level_shape level keyed with ⟨p,rfl⟩ | ⟨same,-⟩
  · have still : bare new = .one .blank .nil := by
      rw [content]
      simp [Forest.one,onMatching,blank]
    rw [base,if_pos still,base_blank]
    rfl
  · have notBlank : bare new ≠ .one .blank .nil := by
      intro bad
      rw [content,← same] at bad
      cases old : base a with
      | nil =>
          rw [old] at bad
          cases bad
      | cons e children rest =>
          rw [old] at bad keyed
          simp only [onMatching,Forest.one,Forest.cons.injEq] at bad
          exact key_filled (keyed e (by simp [Forest.row])) bad.1
    rw [base,if_neg notBlank,content,same]

theorem walks_star {ch rest : Placed Entry} (depth : Nat) (calls : List Call) (walksBelow : Walks ch) (walks : Walks rest)
    (source : Rep h prev parent none (.cons (p,e) ch rest)) (separate : Separate (.cons (p,e) ch rest)) (some' : ch ≠ .nil)
    (level : Level h upper a dst) (apart : ∀ q ∈ addresses (.cons (p,e) ch rest), q ∉ addresses a)
    (keyedSrc : ∀ f ∈ (bare (.cons (p,e) ch rest)).labels, Keyed f) (keyed : ∀ f ∈ (base a).labels, Keyed f)
    (star : e.value = some ['*']) (final' : bare rest = .nil → more = false)
    (good : ∀ block ∈ (base a).blocks, block.1.key = e.key →
      (block.2 = .nil → HasLeaf (bare ch)) ∧ Mergeable false (bare ch) block.2)
    (whole : merged (.one e (bare ch)) (base a) =
      onMatching (fun other => other.key == e.key) (fun found => merged (bare ch) found) (base a))
    (goodRest : Mergeable more (bare rest) (merged (.one e (bare ch)) (base a))) :
    ∃ (later : Heap Entry) (new : Placed Entry) (final : MergeState),
      Reaches mergeStep (.loop h (some p) (some dst) depth calls) final ∧
      Finished more later (lastOf none (.cons (p,e) ch rest)) new depth calls final ∧
      Merges h upper a (merged (bare (.cons (p,e) ch rest)) (base a)) later new := by
  have here := source.1
  obtain ⟨key,value,rfl,-⟩ := keyedSrc e (by simp [Forest.labels])
  obtain rfl := Option.some.inj star
  have separates : Separate ch ∧ Separate rest := separate_parts separate
  obtain ⟨inner,childOf⟩ := head_some some'
  have keyedRow : ∀ f ∈ (base a).row, f.key ≠ none := fun f member => (keyed f (Forest.row_labels member)).key
  have back := rewind_head level.rep level.separate level.member
  obtain ⟨first,headed⟩ := level.headed
  have taken : mergeStep (.loop h (some p) (some dst) depth calls) = .next (.wild h p dst (head a) depth calls) := by
    simp [mergeStep,here,childOf,back,headed]
  have looped : ∃ (middle : Heap Entry) (new : Placed Entry),
      Reaches mergeStep (.wild h p dst (head a) depth calls) (.wild middle p dst none depth calls) ∧
      Rep middle none upper none new ∧ Replaces h a new ∧ Keeps (addresses a) h middle ∧ siblings new = siblings a ∧
      bare new = onMatching (fun other => other.key == some key) (fun found => merged (bare ch) found) (bare a) := by
    rcases level_shape level keyedRow with ⟨t,rfl⟩ | ⟨same,-⟩
    · have blankHere := level.rep.1
      refine ⟨h,_,.one ?_,level.rep,.refl h level.separate,.refl _ h,rfl,rfl⟩
      simp [mergeStep,here,blankHere,Forest.one,Entry.blank]
    · rw [same] at keyed good
      exact wild_level (x := .nil) dst depth calls walksBelow source separates.1 some'
        (fun f inside => keyedSrc f (Forest.labels_below inside)) level.rep level.separate apart keyed good
  obtain ⟨middle,new,reached,rep,replaces,keeps,row,content⟩ := looped
  have merges : Merges h upper a (merged (.one ⟨some key,some ['*']⟩ (bare ch)) (base a)) middle new := by
    refine ⟨rep,replaces,keeps,?_⟩
    rw [whole]
    exact base_onMatching level keyedRow rfl content
  have member : dst ∈ siblings new := row ▸ level.member
  have still := (merges.source source apart).1.1
  have leave : mergeStep (.wild middle p dst none depth calls) = .next (.loop middle (head rest) (some dst) depth calls) := by
    simp [mergeStep,still]
  have walked := Reaches.head taken (reached.trans (.one leave))
  cases rest with
  | nil =>
      refine ⟨middle,new,_,walked,.stopped (final' rfl),?_⟩
      rw [bare_cons,merged_cons]
      exact merges
  | cons second below others =>
      have keyedMade : ∀ f ∈ (merged (.one ⟨some key,some ['*']⟩ (bare ch)) (base a)).labels, Keyed f := by
        refine merged_keyed ?_ keyed
        intro f inside
        refine keyedSrc f ?_
        simp only [bare_cons,Forest.one,Forest.labels,List.append_nil,List.mem_cons,List.mem_append] at inside ⊢
        tauto
      obtain ⟨later,new',final,reached',finished,rest'⟩ := walk_rest depth calls walks (by simp) source.2.2 separates.2
        (fun q inside => apart q (by simp [inside])) (fun f inside => keyedSrc f (Forest.labels_after inside)) merges member
        keyedMade goodRest
      refine ⟨later,new',final,walked.trans reached',finished,?_⟩
      rw [bare_cons,merged_cons]
      exact rest'

theorem walks_match {ch rest : Placed Entry} (depth : Nat) (calls : List Call) (walksBelow : Walks ch) (walks : Walks rest)
    (source : Rep h prev parent none (.cons (p,e) ch rest)) (separate : Separate (.cons (p,e) ch rest)) (some' : ch ≠ .nil)
    (level : Level h upper a dst) (apart : ∀ q ∈ addresses (.cons (p,e) ch rest), q ∉ addresses a)
    (keyedSrc : ∀ f ∈ (bare (.cons (p,e) ch rest)).labels, Keyed f) (keyed : ∀ f ∈ (base a).labels, Keyed f)
    (plain : e.value ≠ some ['*']) (present : e ∈ (base a).row) (once : (base a).row.count e = 1)
    (goodBelow : ∀ block ∈ (base a).blocks, block.1 = e →
      block.2 ≠ .nil ∧ Mergeable (more || decide (bare rest ≠ .nil)) (bare ch) block.2)
    (whole : merged (.one e (bare ch)) (base a) =
      onMatching (fun other => other == e) (fun found => merged (bare ch) found) (base a))
    (good : Mergeable more (bare (.cons (p,e) ch rest)) (base a)) :
    ∃ (later : Heap Entry) (new : Placed Entry) (final : MergeState),
      Reaches mergeStep (.loop h (some p) (some dst) depth calls) final ∧
      Finished more later (lastOf none (.cons (p,e) ch rest)) new depth calls final ∧
      Merges h upper a (merged (bare (.cons (p,e) ch rest)) (base a)) later new := by
  have here := source.1
  obtain ⟨key,value,rfl,-⟩ := keyedSrc e (by simp [Forest.labels])
  obtain ⟨inner,childOf⟩ := head_some some'
  obtain ⟨first,x,t,f,below,y,passed,rfl,same,hit,misses,back,search⟩ :=
    search_found level ⟨_,present,sameEntry_iff.mpr rfl⟩
  obtain rfl := sameEntry_iff.mp hit
  rw [same] at keyed once goodBelow
  obtain ⟨someBelow,mergeable⟩ := goodBelow (⟨some key,some value⟩,bare below) (by simp [Forest.blocks]) rfl
  have keyedBelow : ∀ g ∈ (bare below).labels, Keyed g := fun g inside => keyed g (by simp [Forest.labels,inside])
  have filledBelow := keyed_filled keyedBelow
  obtain ⟨c,childBelow,member⟩ : ∃ c, head below = some c ∧ c ∈ siblings below := by
    cases below with
    | nil => exact absurd rfl someBelow
    | cons label more final => exact ⟨label.1,rfl,by simp [siblings,Forest.row]⟩
  have hereDst := (rep_node level.rep).1
  have taken : mergeStep (.loop h (some p) (some dst) depth calls) = .next (.loop h (head ch) (some c) (depth + 1) calls) := by
    have notStar : value ≠ ['*'] := fun bad => plain (by rw [bad])
    simp [mergeStep,here,childOf,back,search,hereDst,childBelow,notStar]
  have others : ∀ g ∈ (bare y).row, (g == (⟨some key,some value⟩ : Entry)) = false := by
    intro g inside
    by_contra bad
    obtain rfl : g = ⟨some key,some value⟩ := by simpa using bad
    have : 0 < (bare y).row.count ⟨some key,some value⟩ := List.count_pos_iff.mpr inside
    simp only [bare_append,bare_cons,Forest.row_append,Forest.row,List.count_append,List.count_cons_self] at once
    omega
  have before : ∀ g ∈ (bare x).row, (g == (⟨some key,some value⟩ : Entry)) = false := by
    intro g inside
    rw [bare,Forest.row_map] at inside
    obtain ⟨label,there,rfl⟩ := List.mem_map.mp inside
    have missed := misses label there
    by_contra bad
    rw [sameEntry_iff.mpr (by simpa using bad)] at missed
    cases missed
  rw [← same] at keyed
  obtain ⟨later,new,final,reached,finished,merges⟩ := walk_below depth calls walksBelow walks source separate some' apart
    keyedSrc keyed level.rep (.refl h level.separate) (.refl _ h) member (by rw [filledBelow]; exact keyedBelow)
    (by rw [filledBelow]; exact mergeable) good (by
      intro new content
      rw [filledBelow] at content
      have bareNew : bare new = merged (bare ch) (bare below) :=
        base_some content (within_some (within_merged _ _) someBelow)
      rw [whole,same,bare_append,bare_cons,onMatching_one before others (by simp),base_filled,bare_append,bare_cons,bareNew]
      intro label inside
      have inRow : label.2 ∈ (base (x.append (.cons (t,⟨some key,some value⟩) below y))).row := by
        rw [same,bare,Forest.row_map]
        refine List.mem_map_of_mem ?_
        simpa [Forest.row] using inside
      exact key_filled (keyed label.2 (Forest.row_labels inRow)).key)
  exact ⟨later,new,final,.head taken reached,finished,merges⟩

theorem walks_new {ch rest : Placed Entry} (depth : Nat) (calls : List Call) (walksBelow : Walks ch) (walks : Walks rest)
    (source : Rep h prev parent none (.cons (p,e) ch rest)) (separate : Separate (.cons (p,e) ch rest)) (some' : ch ≠ .nil)
    (level : Level h upper a dst) (apart : ∀ q ∈ addresses (.cons (p,e) ch rest), q ∉ addresses a)
    (keyedSrc : ∀ f ∈ (bare (.cons (p,e) ch rest)).labels, Keyed f) (keyed : ∀ f ∈ (base a).labels, Keyed f)
    (plain : e.value ≠ some ['*']) (absent : e ∉ (base a).row) (someDst : base a ≠ .nil) (copied : Whole [] (bare ch))
    (goodBelow : Mergeable (more || decide (bare rest ≠ .nil)) (bare ch) .nil)
    (whole : merged (.one e (bare ch)) (base a) = (base a).append (.one e (bare ch)))
    (good : Mergeable more (bare (.cons (p,e) ch rest)) (base a)) :
    ∃ (later : Heap Entry) (new : Placed Entry) (final : MergeState),
      Reaches mergeStep (.loop h (some p) (some dst) depth calls) final ∧
      Finished more later (lastOf none (.cons (p,e) ch rest)) new depth calls final ∧
      Merges h upper a (merged (bare (.cons (p,e) ch rest)) (base a)) later new := by
  have here := source.1
  obtain ⟨key,value,rfl,-⟩ := keyedSrc e (by simp [Forest.labels])
  obtain ⟨inner,childOf⟩ := head_some some'
  have someCh : bare ch ≠ .nil := by
    cases ch with
    | nil => exact absurd rfl some'
    | cons label below after => simp [bare,Forest.map]
  have keyedRow : ∀ f ∈ (base a).row, f.key ≠ none := fun f member => (keyed f (Forest.row_labels member)).key
  have misses : ∀ f ∈ (base a).row, sameEntry key value f = false := by
    intro f member
    by_contra hit
    exact absent (sameEntry_iff.mp (by simpa using hit) ▸ member)
  obtain ⟨first,passed,back,search⟩ := search_none level keyedRow (show sameEntry key value .blank = false from rfl) misses
  obtain ⟨opened,x,q,c,added,rep,replaces,keeps,levelBelow,before,others⟩ := addBlock_puts level keyedRow (.inl someDst) key value
  have taken : mergeStep (.loop h (some p) (some dst) depth calls) = .next (.loop opened (head ch) (some c) (depth + 1) calls) := by
    have notStar : value ≠ ['*'] := fun bad => plain (by rw [bad])
    simp [mergeStep,here,childOf,back,search,added,notStar]
  obtain ⟨later,new,final,reached,finished,merges⟩ := walk_below (y := .nil) depth calls walksBelow walks source separate some'
    apart keyedSrc keyed rep replaces keeps levelBelow.member (by simp [base_blank,Forest.labels]) (by rw [base_blank]; exact goodBelow)
    good (by
      intro new content
      have fromBlank : merged (bare ch) .nil = bare ch := merged_whole copied
      rw [base_blank,fromBlank] at content
      have bareNew : bare new = bare ch := base_some content someCh
      rw [whole]
      exact (base_last others (by simp [Entry.blank])).trans (by rw [before,bareNew]))
  exact ⟨later,new,final,.head taken reached,finished,merges⟩

theorem walks (s : Placed Entry) : Walks s := by
  induction s with
  | nil => exact fun _ _ _ _ some' => absurd rfl some'
  | cons label ch rest ihChildren ihRest =>
      obtain ⟨p,e⟩ := label
      intro more h prev parent upper a dst depth calls source separate some' level apart keyedSrc keyed good
      cases ch with
      | nil =>
          exact walks_leaf depth calls ihRest source (separate_parts separate).2 level apart keyedSrc keyed good
      | cons inner below after =>
          obtain ⟨c,f⟩ := inner
          have cases' := good
          unfold Mergeable at cases'
          by_cases star : e.value = some ['*']
          · simp only [bare_cons,star,if_true] at cases'
            exact walks_star depth calls ihChildren ihRest source separate (by simp) level apart keyedSrc keyed star cases'.1
              cases'.2.1 (if_pos star) (mergeable_rest good)
          · by_cases present : e ∈ (base a).row
            · simp only [bare_cons,star,present,if_true,if_false] at cases'
              exact walks_match depth calls ihChildren ihRest source separate (by simp) level apart keyedSrc keyed star present
                cases'.1 cases'.2.1 ((if_neg star).trans (if_pos present)) good
            · simp only [bare_cons,star,present,if_false] at cases'
              exact walks_new depth calls ihChildren ihRest source separate (by simp) level apart keyedSrc keyed star present
                cases'.1 cases'.2.1 cases'.2.2.1 ((if_neg star).trans (if_neg present)) good

theorem merge_made (repSrc : Rep h none none none s) (separateSrc : Separate s) (someSrc : s ≠ .nil)
    (repDst : Rep h none none none a) (separateDst : Separate a) (member : dst ∈ siblings a)
    (apart : ∀ p ∈ addresses s, p ∉ addresses a) (keyedSrc : ∀ e ∈ (bare s).labels, Keyed e)
    (keyedDst : ∀ e ∈ (bare a).labels, Keyed e) (good : Mergeable false (bare s) (bare a)) :
    ∃ (later : Heap Entry) (b : Placed Entry), tconfigMerge h (head s) (some dst) later ∧ Rep later none none none b ∧
      Separate b ∧ head b = head a ∧ bare b = merged (bare s) (bare a) ∧ Rep later none none none s := by
  have same := keyed_filled keyedDst
  rw [← same] at keyedDst good
  obtain ⟨later,new,final,reached,finished,merges⟩ := walks s 0 [] repSrc separateSrc someSrc ⟨repDst,separateDst,member⟩ apart
    keyedSrc keyedDst good
  have content : bare new = merged (bare s) (bare a) := by
    rw [← same]
    refine base_some merges.content (within_some (within_merged _ _) ?_)
    rw [same]
    cases a with
    | nil => cases member
    | cons label below after => simp [bare,Forest.map]
  obtain ⟨source,-⟩ := merges.source repSrc apart
  refine ⟨later,new,?_,merges.rep,merges.replaces.separate,merges.replaces.head,content,source⟩
  cases s with
  | nil => exact absurd rfl someSrc
  | cons label below after => exact reached.ends (ends_now (finished_returns source finished))

-- Merging changes dst to what it is for, and leaves src as it is.
theorem defaults_merged (repSrc : Rep h none none none s) (separateSrc : Separate s) (someSrc : s ≠ .nil)
    (repDst : Rep h none none none a) (separateDst : Separate a) (member : dst ∈ siblings a)
    (apart : ∀ p ∈ addresses s, p ∉ addresses a) (keyedSrc : ∀ e ∈ (bare s).labels, Keyed e)
    (keyedDst : ∀ e ∈ (bare a).labels, Keyed e) (good : Mergeable false (bare s) (bare a)) :
    ∃ (later : Heap Entry) (b : Placed Entry), tconfigMerge h (head s) (some dst) later ∧ Rep later none none none b ∧
      Separate b ∧ head b = head a ∧ bare b = merged (bare s) (bare a) ∧ Within (bare a) (bare b) ∧
      Rep later none none none s := by
  obtain ⟨later,b,ends,rep,separate,first,content,source⟩ :=
    merge_made repSrc separateSrc someSrc repDst separateDst member apart keyedSrc keyedDst good
  refine ⟨later,b,ends,rep,separate,first,content,?_,source⟩
  rw [content]
  exact within_merged _ _

-- Defaults for every network and its channels, and a network with a channel that has no settings.
def defaultsTree : Placed Entry :=
  .one (0,⟨some "network".toList,some "*".toList⟩)
    (.cons (1,⟨some "handlen".toList,some "32".toList⟩) .nil
      (.one (2,⟨some "channel".toList,some "*".toList⟩) (.one (3,⟨some "bitch".toList,some "0".toList⟩) .nil)))

def configTree : Placed Entry :=
  .one (4,⟨some "network".toList,some "efnet".toList⟩)
    (.cons (5,⟨some "handlen".toList,some "9".toList⟩) .nil (.one (6,⟨some "channel".toList,some "#c".toList⟩) .nil))

def configHeap : Heap Entry :=
  [some ⟨⟨some "network".toList,some "*".toList⟩,none,none,none,some 1⟩,
    some ⟨⟨some "handlen".toList,some "32".toList⟩,none,some 2,some 0,none⟩,
    some ⟨⟨some "channel".toList,some "*".toList⟩,some 1,none,none,some 3⟩,
    some ⟨⟨some "bitch".toList,some "0".toList⟩,none,none,some 2,none⟩,
    some ⟨⟨some "network".toList,some "efnet".toList⟩,none,none,none,some 5⟩,
    some ⟨⟨some "handlen".toList,some "9".toList⟩,none,some 6,some 4,none⟩,
    some ⟨⟨some "channel".toList,some "#c".toList⟩,some 5,none,none,none⟩]

theorem defaults_keyed : ∀ e ∈ (bare defaultsTree).labels, Keyed e := by
  intro e member
  simp only [defaultsTree,bare,Forest.one,Forest.map,Forest.labels,List.mem_cons,List.nil_append,List.append_nil,
    List.not_mem_nil,or_false] at member
  rcases member with rfl | rfl | rfl | rfl <;> exact ⟨_,_,rfl,by decide⟩

theorem config_keyed : ∀ e ∈ (bare configTree).labels, Keyed e := by
  intro e member
  simp only [configTree,bare,Forest.one,Forest.map,Forest.labels,List.mem_cons,List.nil_append,List.append_nil,
    List.not_mem_nil,or_false] at member
  rcases member with rfl | rfl | rfl <;> exact ⟨_,_,rfl,by decide⟩

theorem config_mergeable : Mergeable false (bare defaultsTree) (bare configTree) := by
  refine ⟨fun _ => rfl,?_,trivial⟩
  intro block member _
  simp only [configTree,bare,Forest.one,Forest.map,Forest.blocks,List.mem_singleton] at member
  subst member
  refine ⟨fun bad => (by cases bad),fun _ => rfl,?_,trivial⟩
  intro block member same
  have inConfig : block ∈ (bare (.cons (5,⟨some "handlen".toList,some "9".toList⟩) .nil
      (.one (6,⟨some "channel".toList,some "#c".toList⟩) .nil))).blocks := member
  simp only [bare,Forest.one,Forest.map,Forest.blocks,List.mem_cons,List.not_mem_nil,or_false] at inConfig
  rcases inConfig with rfl | rfl
  · exact absurd same (by decide)
  · exact ⟨fun _ => ⟨_,List.mem_singleton.mpr rfl,rfl⟩,trivial⟩

theorem defaults_rep : Rep configHeap none none none defaultsTree := ⟨rfl,⟨rfl,trivial,rfl,⟨rfl,trivial,trivial⟩,trivial⟩,trivial⟩

theorem config_rep : Rep configHeap none none none configTree := ⟨rfl,⟨rfl,trivial,rfl,trivial,trivial⟩,trivial⟩

theorem config_merged :
    ∃ (later : Heap Entry) (b : Placed Entry), tconfigMerge configHeap (head defaultsTree) (some 4) later ∧
      Rep later none none none b ∧ Separate b ∧ head b = head configTree ∧
      bare b = merged (bare defaultsTree) (bare configTree) ∧ Within (bare configTree) (bare b) ∧
      Rep later none none none defaultsTree :=
  defaults_merged (a := configTree) defaults_rep (by unfold Separate; decide) (by simp [defaultsTree,Forest.one]) config_rep
    (by unfold Separate; decide) (by decide) (by decide) defaults_keyed config_keyed config_mergeable

-- A block without children that src has children for: dst runs into a null pointer.
theorem childless_match_faults :
    ∃ (h : Heap Entry) (s a : Placed Entry), Rep h none none none s ∧ Rep h none none none a ∧ Separate s ∧ Separate a ∧
      (∀ p ∈ addresses s, p ∉ addresses a) ∧ (∀ e ∈ (bare s).labels, Keyed e) ∧ (∀ e ∈ (bare a).labels, Keyed e) ∧
      (head s).isSome ∧ (head a).isSome ∧ ∀ later, ¬tconfigMerge h (head s) (head a) later := by
  refine ⟨[some ⟨⟨some "network".toList,some "efnet".toList⟩,none,none,none,some 1⟩,
      some ⟨⟨some "handlen".toList,some "32".toList⟩,none,none,some 0,none⟩,
      some ⟨⟨some "network".toList,some "efnet".toList⟩,none,none,none,none⟩],
    .one (0,⟨some "network".toList,some "efnet".toList⟩) (.one (1,⟨some "handlen".toList,some "32".toList⟩) .nil),
    .one (2,⟨some "network".toList,some "efnet".toList⟩) .nil,⟨rfl,⟨rfl,trivial,trivial⟩,trivial⟩,⟨rfl,trivial,trivial⟩,
    by unfold Separate; decide,by unfold Separate; decide,by decide,?_,?_,rfl,rfl,?_⟩
  · intro e member
    simp only [bare,Forest.one,Forest.map,Forest.labels,List.mem_cons,List.append_nil,List.not_mem_nil,or_false] at member
    rcases member with rfl | rfl <;> exact ⟨_,_,rfl,by decide⟩
  · intro e member
    simp only [bare,Forest.one,Forest.map,Forest.labels,List.append_nil,List.mem_singleton] at member
    subst member
    exact ⟨_,_,rfl,by decide⟩
  · intro later
    exact fault_stays (show runFor mergeStep 3 _ = .fault from rfl)

end Trollbot.Tconfig

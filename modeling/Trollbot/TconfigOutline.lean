import Trollbot.Foundation.Levels
import Trollbot.TconfigTokens

-- What a file's tokens say about its blocks, without any records, and the parser's tree as a picture
-- of it.
namespace Trollbot.Tconfig
open CBuffer Linked Machine

-- The place of the block that is open, and the entries of every level that was opened.
structure Outline where
  path : List Nat
  pos : Nat
  rows : List Nat → Option (List Entry)

def Outline.start : Outline := ⟨[],0,fun path => if path = [] then some [] else none⟩

def Word.pair (key value : Word) : Entry := ⟨some key.text,some value.text⟩

-- An opened level goes on if it was opened before, and so does the block of a pair that is already on
-- its level. The top is not closed.
def Outline.read (o : Outline) : Token → Option Outline
  | .opened =>
    match o.rows (o.pos :: o.path) with
    | some _ => some ⟨o.pos :: o.path,0,o.rows⟩
    | none => some ⟨o.pos :: o.path,0,Function.update o.rows (o.pos :: o.path) (some [])⟩
  | .closed =>
    match o.path with
    | [] => none
    | i :: above => some ⟨above,i,o.rows⟩
  | .entry key value =>
    let row := (o.rows o.path).getD []
    match row.findIdx? (sameEntry key.text value.text) with
    | some i => some { o with pos := i }
    | none => some ⟨o.path,row.length,Function.update o.rows o.path (some (row ++ [key.pair value]))⟩

def outline (tokens : List Token) : Option Outline := tokens.foldlM Outline.read Outline.start

-- The labels on a level: a level that was opened has a blank block until an entry is put there.
def shown : Option (List Entry) → List Entry
  | none => []
  | some [] => [.blank]
  | some (e :: row) => e :: row

structure Pictured (head : Nat) (o : Outline) (levels : Levels Entry) (h : Heap Entry) (block : Nat) : Prop where
  laid : Laid h levels
  top : placeAt levels [] 0 = some head
  shows : ∀ path, (levels path).map Prod.snd = shown (o.rows path)
  here : placeAt levels o.path o.pos = some block

-- The entries of an outline are those of the tokens read so far, none of them twice on a level.
structure Tidy (o : Outline) (passed : List Token) : Prop where
  once : ∀ path row, o.rows path = some row → row.Nodup
  source : ∀ path row, o.rows path = some row → ∀ e ∈ row, ∃ key value, .entry key value ∈ passed ∧ e = key.pair value
  target : ∀ key value, .entry key value ∈ passed → ∃ path row, o.rows path = some row ∧ key.pair value ∈ row

theorem Tidy.filled (tidy : Tidy o passed) (row : o.rows path = some entries) : .blank ∉ entries := by
  intro member
  obtain ⟨key,value,-,same⟩ := tidy.source _ _ row _ member
  cases same

theorem shown_written (some' : row ≠ []) : shown (some row) = row := by
  cases row with
  | nil => exact absurd rfl some'
  | cons e row => rfl

theorem shown_length {levels : Levels Entry} (shows : (levels path).map Prod.snd = shown row) :
    (levels path).length = (shown row).length := by
  rw [← shows,List.length_map]

theorem row_get {levels : Levels Entry} {row : List Entry} {i : Nat} {label : Entry} (shows : (levels path).map Prod.snd = row)
    (inRow : (levels path)[i]? = some (p,label)) : row[i]? = some label := by
  rw [← shows,List.getElem?_map,inRow]
  rfl

theorem shown_none {levels : Levels Entry} (shows : (levels path).map Prod.snd = shown row) :
    levels path = [] ↔ row = none := by
  constructor
  · intro empty
    rw [empty] at shows
    cases row with
    | none => rfl
    | some row => cases row <;> cases shows
  · rintro rfl
    exact List.map_eq_nil_iff.mp shows

theorem shown_update {levels later : Levels Entry} {rows : List Nat → Option (List Entry)}
    (shows : ∀ path, (levels path).map Prod.snd = shown (rows path)) (here : (later path).map Prod.snd = shown (some row))
    (others : ∀ path', path' ≠ path → later path' = levels path') (path' : List Nat) :
    (later path').map Prod.snd = shown (Function.update rows path (some row) path') := by
  by_cases same : path' = path
  · subst same
    rw [Function.update_self]
    exact here
  · rw [others path' same,Function.update_of_ne same]
    exact shows path'

-- One lemma for each kind of token.
section tokens
variable {o : Outline} {levels : Levels Entry} {h : Heap Entry} {block head : Nat} (pictured : Pictured head o levels h block)
include pictured

theorem here_cell : ∃ label, (levels o.path)[o.pos]? = some (block,label) ∧
    cell h block = some (nodeAt (placeAt levels) o.path o.pos label) := by
  obtain ⟨label,inRow⟩ := placeAt_some.mp pictured.here
  exact ⟨label,inRow,pictured.laid.cells _ _ _ _ inRow⟩

theorem opened_pictured : ∃ o' levels' later block',
    o.read .opened = some o' ∧ openBrace h block = some (later,block') ∧ Pictured head o' levels' later block' := by
  obtain ⟨label,inRow,live⟩ := here_cell pictured
  have below := pictured.shows (o.pos :: o.path)
  cases known : o.rows (o.pos :: o.path) with
  | some row =>
      have some' : levels (o.pos :: o.path) ≠ [] := by
        intro empty
        rw [shown_none below,known] at empty
        cases empty
      obtain ⟨child,there⟩ := placeAt_exists levels (o.pos :: o.path) (List.length_pos_iff.mpr some')
      refine ⟨⟨o.pos :: o.path,0,o.rows⟩,levels,h,child,by simp only [Outline.read,known],?_,⟨pictured.laid,pictured.top,pictured.shows,there⟩⟩
      simp only [openBrace,live,Option.bind_eq_bind,Option.bind_some,nodeAt,there]
  | none =>
      have leaf : levels (o.pos :: o.path) = [] := (shown_none below).mpr known
      have childless : placeAt levels (o.pos :: o.path) 0 = none := by rw [placeAt,leaf]; rfl
      have laid := laid_addChild pictured.laid pictured.here live leaf .blank
      refine ⟨⟨o.pos :: o.path,0,Function.update o.rows (o.pos :: o.path) (some [])⟩,_,_,h.length,
        by simp only [Outline.read,known],?_,⟨laid,?_,?_,?_⟩⟩
      · simp only [openBrace,live,Option.bind_eq_bind,Option.bind_some,nodeAt,childless]
      · exact placeAt_old pictured.top _ _ _
      · refine shown_update pictured.shows ?_ (fun _ => putLast_other _ _ _)
        simp [leaf,shown]
      · simp [placeAt,leaf]

theorem closed_pictured : (o.read .closed = none ∧ closeBrace h block = some none) ∨ ∃ o' block',
    o.read .closed = some o' ∧ closeBrace h block = some (some block') ∧ Pictured head o' levels h block' := by
  have inside := placeAt_inside pictured.here
  obtain ⟨first,start⟩ := placeAt_exists levels o.path (show 0 < (levels o.path).length by omega)
  obtain ⟨label,inRow⟩ := placeAt_some.mp start
  have rewound := laid_rewind pictured.laid pictured.here
  have live := pictured.laid.cells _ _ _ _ inRow
  cases above : o.path with
  | nil =>
      refine .inl ⟨by simp only [Outline.read,above],?_⟩
      rw [above] at rewound start live
      simp only [closeBrace,rewound,start,live,Option.bind_eq_bind,Option.bind_some,nodeAt]
  | cons i above' =>
      rw [above] at rewound start live
      obtain ⟨parent,there⟩ := placeAt_exists levels above' (pictured.laid.owned i above' (List.ne_nil_of_length_pos (placeAt_inside start)))
      refine .inr ⟨⟨above',i,o.rows⟩,parent,by simp only [Outline.read,above],?_,⟨pictured.laid,pictured.top,pictured.shows,there⟩⟩
      simp only [closeBrace,rewound,start,live,Option.bind_eq_bind,Option.bind_some,nodeAt,there]

theorem blank_pictured (empty : o.rows o.path = some []) (e : Entry) : ∃ n levels',
    (levels o.path).length = 1 ∧ placeAt levels o.path 0 = some block ∧ cell h block = some n ∧ n.label = .blank ∧
      Pictured head ⟨o.path,0,Function.update o.rows o.path (some [e])⟩ levels' (store h block { n with label := e }) block := by
  obtain ⟨label,inRow,live⟩ := here_cell pictured
  have shows := pictured.shows o.path
  rw [empty] at shows
  have length : (levels o.path).length = 1 := shown_length shows
  have only : o.pos = 0 := by
    have inside := placeAt_inside pictured.here
    omega
  rw [only] at inRow
  have here := pictured.here
  rw [only] at here
  have same : label = .blank := by simpa [shown] using (row_get shows inRow).symm
  have laid := laid_relabel pictured.laid here live e
  refine ⟨_,_,length,here,live,same,⟨laid,?_,?_,?_⟩⟩
  · rw [placeAt_relabel here]
    exact pictured.top
  · refine shown_update pictured.shows ?_ (fun _ => relabel_other _ _ _ _)
    rw [relabel_same,List.map_set,shows]
    rfl
  · rw [placeAt_relabel here]
    exact here

theorem last_pictured (written : o.rows o.path = some row) (some' : row ≠ []) (e : Entry) : ∃ n last label levels',
    (levels o.path).length = row.length ∧ placeAt levels o.path (row.length - 1) = some last ∧ cell h last = some n ∧
      n.label = label ∧ label ∈ row ∧
      Pictured head ⟨o.path,row.length,Function.update o.rows o.path (some (row ++ [e]))⟩ levels'
        (store (alloc h ⟨e,some last,none,none,none⟩) last { n with next := some h.length }) h.length := by
  have shows := pictured.shows o.path
  rw [written,shown_written some'] at shows
  have length : (levels o.path).length = row.length := by rw [← shows,List.length_map]
  have positive := List.length_pos_iff.mpr some'
  obtain ⟨last,there⟩ := placeAt_exists levels o.path (show row.length - 1 < (levels o.path).length by omega)
  obtain ⟨label,inRow⟩ := placeAt_some.mp there
  have live := pictured.laid.cells _ _ _ _ inRow
  have laid := laid_addSibling pictured.laid there (by omega) live e
  refine ⟨_,last,label,_,length,there,live,rfl,?_,⟨laid,?_,?_,?_⟩⟩
  · rw [← shows]
    exact List.mem_map.mpr ⟨_,List.mem_of_getElem? inRow,rfl⟩
  · exact placeAt_old pictured.top _ _ _
  · refine shown_update pictured.shows ?_ (fun _ => putLast_other _ _ _)
    rw [putLast_same,List.map_append,shows,shown_written (by simp)]
    rfl
  · rw [placeAt_putLast,if_pos ⟨rfl,length.symm⟩]

theorem entry_pictured (tidy : Tidy o passed) (key value : Word) : ∃ o' levels' later block',
    o.read (.entry key value) = some o' ∧ insertEntry h block key.text value.text = some (later,block') ∧
      Pictured head o' levels' later block' := by
  have inside := placeAt_inside pictured.here
  obtain ⟨first,start⟩ := placeAt_exists levels o.path (show 0 < (levels o.path).length by omega)
  have rewound := laid_rewind pictured.laid pictured.here
  have shows := pictured.shows o.path
  cases known : o.rows o.path with
  | none =>
      have missing := (shown_none shows).mpr known
      rw [missing] at inside
      cases inside
  | some row =>
      cases searched : row.findIdx? (sameEntry key.text value.text) with
      | some i =>
          obtain ⟨bound,hit,misses⟩ := List.findIdx?_eq_some_iff_getElem.mp searched
          have some' : row ≠ [] := List.ne_nil_of_length_pos (by omega)
          rw [known,shown_written some'] at shows
          obtain ⟨search,there⟩ := placeAt_exists levels o.path
            (show i < (levels o.path).length by rwa [← List.length_map (f := Prod.snd),shows])
          obtain ⟨label,inRow⟩ := placeAt_some.mp there
          have found := laid_found pictured.laid (sameEntry key.text value.text) ?_ inRow ?_
          · obtain ⟨passed,walked⟩ := found
            rw [start] at walked
            refine ⟨{ o with pos := i },levels,h,search,?_,?_,⟨pictured.laid,pictured.top,pictured.shows,there⟩⟩
            · simp only [Outline.read,known,Option.getD_some,searched]
            · simp only [insertEntry,rewound,start,walked,Option.bind_eq_bind,Option.bind_some]
          · intro j before p other inRow
            obtain ⟨_,same⟩ := List.getElem?_eq_some_iff.mp (row_get shows inRow)
            rw [← same]
            simpa using misses j before
          · obtain ⟨_,same⟩ := List.getElem?_eq_some_iff.mp (row_get shows inRow)
            rwa [← same]
      | none =>
          have misses := List.findIdx?_eq_none_iff.mp searched
          have blankless : sameEntry key.text value.text .blank = false := rfl
          have passes : ∀ label ∈ (levels o.path).map Prod.snd, sameEntry key.text value.text label = false := by
            intro label member
            rw [shows,known] at member
            cases row with
            | nil =>
                obtain rfl := List.mem_singleton.mp member
                rfl
            | cons e rest => exact misses label member
          have walked := laid_none pictured.laid passes
          rw [start] at walked
          by_cases some' : row = []
          · subst some'
            obtain ⟨n,levels',length,here,live,blank,later⟩ := blank_pictured pictured known (key.pair value)
            refine ⟨_,levels',_,block,?_,?_,later⟩
            · simp only [Outline.read,known,Option.getD_some,searched,List.length_nil,List.nil_append]
            · rw [length,before,here] at walked
              simp only [insertEntry,rewound,start,walked,live,blank,Option.bind_eq_bind,Option.bind_some,if_true,Word.pair]
          · obtain ⟨n,last,label,levels',length,there,live,labelled,member,later⟩ := last_pictured pictured known some' (key.pair value)
            have filled : n.label ≠ .blank := by
              intro blank
              rw [← labelled,blank] at member
              exact tidy.filled known member
            have positive := List.length_pos_iff.mpr some'
            refine ⟨_,levels',_,h.length,?_,?_,later⟩
            · simp only [Outline.read,known,Option.getD_some,searched]
            · rw [length,show row.length = row.length - 1 + 1 by omega,before,there] at walked
              simp only [insertEntry,rewound,start,walked,live,Option.bind_eq_bind,Option.bind_some,if_neg filled,Word.pair]

end tokens

theorem sameEntry_pair (key value : Word) (e : Entry) : sameEntry key.text value.text e = true ↔ e = key.pair value :=
  sameEntry_iff

-- A step of the outline leaves the levels as they are, or opens one, or puts the token's pair last on one.
theorem read_rows {o o' : Outline} {token : Token} (read : o.read token = some o') : (o'.rows = o.rows ∧ ∀ key value, token = .entry key value →
      ∃ path row, o.rows path = some row ∧ key.pair value ∈ row) ∨
    (∃ path, token = .opened ∧ o.rows path = none ∧ o'.rows = Function.update o.rows path (some [])) ∨
    ∃ path key value, token = .entry key value ∧ key.pair value ∉ (o.rows path).getD [] ∧
      o'.rows = Function.update o.rows path (some ((o.rows path).getD [] ++ [key.pair value])) := by
  cases token with
  | opened =>
      simp only [Outline.read] at read
      split at read
      · cases read
        exact .inl ⟨rfl,nofun⟩
      · rename_i unknown
        cases read
        exact .inr (.inl ⟨_,rfl,unknown,rfl⟩)
  | closed =>
      simp only [Outline.read] at read
      split at read
      · cases read
      · cases read
        exact .inl ⟨rfl,nofun⟩
  | entry key value =>
      simp only [Outline.read] at read
      split at read
      · rename_i i searched
        cases read
        refine .inl ⟨rfl,?_⟩
        rintro _ _ ⟨rfl,rfl⟩
        obtain ⟨bound,hit,-⟩ := List.findIdx?_eq_some_iff_getElem.mp searched
        have member := List.getElem_mem bound
        rw [(sameEntry_pair key value _).mp hit] at member
        cases known : o.rows o.path with
        | none =>
            rw [known] at member
            cases member
        | some row =>
            rw [known] at member
            exact ⟨o.path,row,known,member⟩
      · rename_i searched
        cases read
        refine .inr (.inr ⟨o.path,key,value,rfl,?_,rfl⟩)
        intro member
        have misses := List.findIdx?_eq_none_iff.mp searched _ member
        rw [(sameEntry_pair key value _).mpr rfl] at misses
        cases misses

theorem update_row {rows : List Nat → Option (List Entry)} (row : Function.update rows path (some new) path' = some old) :
    old = new ∨ rows path' = some old := by
  by_cases same : path' = path
  · subst same
    rw [Function.update_self] at row
    exact .inl (Option.some.inj row).symm
  · rw [Function.update_of_ne same] at row
    exact .inr row

theorem read_tidy {o o' : Outline} (tidy : Tidy o passed) (read : o.read token = some o') : Tidy o' (passed ++ [token]) := by
  have older : ∀ key value, Token.entry key value ∈ passed → Token.entry key value ∈ passed ++ [token] :=
    fun key value member => List.mem_append_left _ member
  rcases read_rows read with ⟨same,known⟩ | ⟨path,rfl,unknown,grown⟩ | ⟨path,key,value,rfl,new,grown⟩
  · refine ⟨?_,?_,?_⟩
    · rw [same]
      exact tidy.once
    · intro path row here e member
      rw [same] at here
      obtain ⟨key,value,inside,rfl⟩ := tidy.source path row here e member
      exact ⟨key,value,older _ _ inside,rfl⟩
    · intro key value member
      rw [same]
      rcases List.mem_append.mp member with old | last
      · exact tidy.target key value old
      · exact known key value (List.mem_singleton.mp last).symm
  · refine ⟨?_,?_,?_⟩
    · intro path' row here
      rw [grown] at here
      rcases update_row here with rfl | old
      · exact List.nodup_nil
      · exact tidy.once _ _ old
    · intro path' row here e member
      rw [grown] at here
      rcases update_row here with rfl | old
      · cases member
      · obtain ⟨key,value,inside,rfl⟩ := tidy.source _ _ old e member
        exact ⟨key,value,older _ _ inside,rfl⟩
    · intro key value member
      rcases List.mem_append.mp member with old | last
      · obtain ⟨path',row,here,inside⟩ := tidy.target key value old
        refine ⟨path',row,?_,inside⟩
        rw [grown,Function.update_of_ne,here]
        rintro rfl
        rw [here] at unknown
        cases unknown
      · cases List.mem_singleton.mp last
  · have rows : ∀ row, o.rows path = some row → (o.rows path).getD [] = row := by
      intro row here
      rw [here]
      rfl
    refine ⟨?_,?_,?_⟩
    · intro path' row here
      rw [grown] at here
      rcases update_row here with rfl | old
      · refine List.nodup_append.mpr ⟨?_,by simp,?_⟩
        · cases known : o.rows path with
          | none => exact List.nodup_nil
          | some row => exact tidy.once _ _ known
        · rintro e member _ last rfl
          obtain rfl := List.mem_singleton.mp last
          exact new member
      · exact tidy.once _ _ old
    · intro path' row here e member
      rw [grown] at here
      rcases update_row here with rfl | old
      · rcases List.mem_append.mp member with before | last
        · cases known : o.rows path with
          | none =>
              rw [known] at before
              cases before
          | some row =>
              rw [rows row known] at before
              obtain ⟨key',value',inside,rfl⟩ := tidy.source _ _ known e before
              exact ⟨key',value',older _ _ inside,rfl⟩
        · exact ⟨key,value,by simp,List.mem_singleton.mp last⟩
      · obtain ⟨key',value',inside,rfl⟩ := tidy.source _ _ old e member
        exact ⟨key',value',older _ _ inside,rfl⟩
    · intro key' value' member
      rw [grown]
      rcases List.mem_append.mp member with old | last
      · obtain ⟨path',row,here,inside⟩ := tidy.target key' value' old
        by_cases same : path' = path
        · subst same
          exact ⟨path',_,Function.update_self _ _ _,List.mem_append_left _ (by rwa [rows row here])⟩
        · exact ⟨path',row,by rw [Function.update_of_ne same,here],inside⟩
      · cases List.mem_singleton.mp last
        exact ⟨path,_,Function.update_self _ _ _,by simp⟩

-- A token does to the tree what it does to the outline, or is refused by both.
theorem token_pictured {head : Nat} (pictured : Pictured head o levels h block) (tidy : Tidy o passed) (token : Token) :
    (o.read token = none ∧ applyToken (h,block) token = none) ∨ ∃ o' levels' later block',
      o.read token = some o' ∧ applyToken (h,block) token = some (later,block') ∧ Pictured head o' levels' later block' := by
  cases token with
  | opened => exact .inr (opened_pictured pictured)
  | closed =>
      rcases closed_pictured pictured with ⟨read,closed⟩ | ⟨o',block',read,closed,later⟩
      · exact .inl ⟨read,by simp [applyToken,closed]⟩
      · exact .inr ⟨o',levels,h,block',read,by simp [applyToken,closed],later⟩
  | entry key value => exact .inr (entry_pictured pictured tidy key value)

theorem run_pictured {head : Nat} {all : List Token} (pictured : Pictured head o levels h block) (tidy : Tidy o passed)
    (applied : all.foldlM applyToken (h,block) = some (later,block')) : ∃ o' levels',
      all.foldlM Outline.read o = some o' ∧ Pictured head o' levels' later block' ∧ Tidy o' (passed ++ all) := by
  induction all generalizing o levels h block passed with
  | nil =>
      cases applied
      exact ⟨o,levels,rfl,pictured,by simpa using tidy⟩
  | cons token rest ih =>
      rw [List.foldlM_cons] at applied
      rcases token_pictured pictured tidy token with ⟨-,refused⟩ | ⟨o',levels',middle,block'',read,taken,pictured'⟩
      · rw [refused] at applied
        cases applied
      · rw [taken] at applied
        obtain ⟨last,final,reads,shows,tidy'⟩ := ih pictured' (read_tidy tidy read) applied
        refine ⟨last,final,?_,shows,by simpa using tidy'⟩
        rw [List.foldlM_cons,read]
        exact reads

theorem start_pictured (h : Heap Entry) :
    Pictured h.length .start (single h.length .blank) (tconfigBlockNew h) h.length ∧ Tidy .start [] := by
  refine ⟨⟨laid_single h .blank,rfl,?_,rfl⟩,⟨?_,?_,nofun⟩⟩
  · intro path
    unfold single Outline.start
    by_cases top : path = []
    · simp [top,shown]
    · simp [top,shown]
  · intro path row here
    simp only [Outline.start] at here
    split at here
    · cases here
      exact List.nodup_nil
    · cases here
  · intro path row here
    simp only [Outline.start] at here
    split at here
    · cases here
      exact nofun
    · cases here

-- The tree that a file gives is the picture of its outline.
theorem parsed_pictured (parsed : fileToTconfig h contents (.tree later)) : ∃ o levels block,
    outline (tokens contents) = some o ∧ Pictured h.length o levels later block ∧ Tidy o (tokens contents) := by
  obtain ⟨block,applied⟩ := parsed_tokens parsed
  obtain ⟨pictured,tidy⟩ := start_pictured h
  obtain ⟨o,levels,reads,pictured',tidy'⟩ := run_pictured pictured tidy applied
  exact ⟨o,levels,block,reads,pictured',tidy'⟩

end Trollbot.Tconfig

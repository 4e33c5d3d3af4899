import Trollbot.TconfigParsed
import Trollbot.Users
import Mathlib.Data.List.ReduceOption

-- The user records of a network, written to its user file and read again.
namespace Trollbot.Users
open Tconfig

def optional (key : Str) (value : Option Str) : List Entry := value.toList.map (fun value => ⟨some key,some value⟩)

-- A block is made for the next field before there is one, and only the flags come without one.
def settings (user : User) : List Entry :=
  optional "nick".toList user.nick ++ optional "ident".toList user.ident ++ optional "host".toList user.host ++
    optional "console".toList user.console ++ optional "uhost".toList user.uhost ++ optional "passhash".toList user.passhash ++
    optional "hash_type".toList user.hashType ++
    [match user.flags with
      | some flags => ⟨some "flags".toList,some flags⟩
      | none => .blank]

def usersToTconfig : List User → Forest Entry
  | [] => .nil
  | user :: rest =>
    .cons ⟨some "user".toList,some user.username⟩ (if Bare user then .nil else leaves (settings user)) (usersToTconfig rest)

def userField (user : User) (child : Entry) : Option User := do
  let key ← child.key
  if key = "nick".toList then some { user with nick := user.nick.or child.value }
  else if key = "passhash".toList then some { user with passhash := user.passhash.or child.value }
  else if key = "hash_type".toList then some { user with hashType := user.hashType.or child.value }
  else if key = "ident".toList then some { user with ident := user.ident.or child.value }
  else if key = "console".toList then some { user with console := user.console.or child.value }
  else if key = "realname".toList then some { user with realname := user.realname.or child.value }
  else if key = "host".toList then some { user with host := user.host.or child.value }
  else if key = "uhost".toList then some { user with uhost := user.uhost.or child.value }
  else if key = "flags".toList then some { user with flags := user.flags.or child.value }
  else some user

-- The outer none is a crash, the inner one is NULL. A block of a file with a key has a value.
def newUserFromTconfigBlock (block : Entry × Forest Entry) : Option (Option User) := do
  let key ← block.1.key
  if key = "user".toList then do
    let username ← block.1.value
    let user ← block.2.row.foldlM userField (newUser username none none none none none none)
    some (some user)
  else some none

-- users_save with a user file, before and after.
def usersSave (users : List User) (file after : Option Str) : Prop := tconfigSave (usersToTconfig users) file after

def usersLoad (file : Option Str) (users : List User) : Prop :=
  ∃ blocks found, fileBlocks file blocks ∧ blocks.mapM newUserFromTconfigBlock = some found ∧ found.reduceOption = users

def Kept (file : Option Str) (users : List User) : Prop := ∃ after, usersSave users file after ∧ usersLoad after users

def fields (user : User) : List (Option Str) :=
  [user.nick,user.ident,user.host,user.uhost,user.console,user.realname,user.passhash,user.hashType,user.flags]

-- What comes back of a record.
def saved (user : User) : User :=
  if Bare user then newUser user.username none none none none none none else { user with realname := none }

theorem optional_reads (key : Str) (value : Option Str) (set : User → Option Str → User)
    (reads : ∀ user value, userField user ⟨some key,some value⟩ = some (set user (some value))) (keeps : ∀ user, set user none = user)
    (user : User) : (optional key value).foldlM userField user = some (set user value) := by
  cases value with
  | none => simp [optional,keeps]
  | some value => simp [optional,reads]

theorem settings_read (user : User) (flags : user.flags = some value) :
    (settings user).foldlM userField (newUser user.username none none none none none none) = some { user with realname := none } := by
  have nick := optional_reads "nick".toList user.nick (fun user value => { user with nick := user.nick.or value })
    (fun _ _ => rfl) (fun user => by simp)
  have ident := optional_reads "ident".toList user.ident (fun user value => { user with ident := user.ident.or value })
    (fun _ _ => rfl) (fun user => by simp)
  have host := optional_reads "host".toList user.host (fun user value => { user with host := user.host.or value })
    (fun _ _ => rfl) (fun user => by simp)
  have console := optional_reads "console".toList user.console (fun user value => { user with console := user.console.or value })
    (fun _ _ => rfl) (fun user => by simp)
  have uhost := optional_reads "uhost".toList user.uhost (fun user value => { user with uhost := user.uhost.or value })
    (fun _ _ => rfl) (fun user => by simp)
  have passhash := optional_reads "passhash".toList user.passhash (fun user value => { user with passhash := user.passhash.or value })
    (fun _ _ => rfl) (fun user => by simp)
  have hashType := optional_reads "hash_type".toList user.hashType (fun user value => { user with hashType := user.hashType.or value })
    (fun _ _ => rfl) (fun user => by simp)
  have last : ∀ user : User, userField user ⟨some "flags".toList,some value⟩ = some { user with flags := user.flags.or (some value) } :=
    fun _ => rfl
  simp only [settings,flags,List.foldlM_append,nick,ident,host,console,uhost,passhash,hashType,List.foldlM_cons,List.foldlM_nil,last,
    Option.bind_eq_bind,Option.bind_some]
  simp [newUser]

theorem user_reads (user : User) (writable : Writable user) :
    newUserFromTconfigBlock (⟨some "user".toList,some user.username⟩,if Bare user then .nil else leaves (settings user)) =
      some (some (saved user)) := by
  unfold saved
  by_cases bare : Bare user
  · rw [if_pos bare,if_pos bare]
    rfl
  · obtain ⟨flags,set⟩ := Option.ne_none_iff_exists'.mp (writable.resolve_right bare)
    have read := settings_read user set
    rw [if_neg bare,if_neg bare]
    simp only [newUserFromTconfigBlock,Option.bind_eq_bind,Option.bind_some,if_true,leaves_row,read]

theorem users_read (users : List User) (writable : ∀ user ∈ users, Writable user) :
    (usersToTconfig users).blocks.mapM newUserFromTconfigBlock = some (users.map (fun user => some (saved user))) := by
  induction users with
  | nil => rfl
  | cons user rest ih =>
      have first := user_reads user (writable user (by simp))
      have later := ih (fun other member => writable other (by simp [member]))
      simp only [usersToTconfig,Forest.blocks,List.mapM_cons,first,later,Option.bind_eq_bind,Option.bind_some,List.map_cons,Option.pure_def]

-- A record with a field but without flags leaves a block empty.
theorem users_unfilled (member : user ∈ users) (unwritable : ¬Writable user) : ∃ e ∈ (usersToTconfig users).labels, ¬Filled e := by
  induction users with
  | nil => cases member
  | cons first rest ih =>
      rcases List.mem_cons.mp member with rfl | later
      · rw [Writable,not_or,not_not] at unwritable
        refine ⟨.blank,?_,?_⟩
        · simp [usersToTconfig,Forest.labels,unwritable.2,settings,unwritable.1]
        · rintro ⟨key,value,same⟩
          cases same
      · obtain ⟨e,inside,blank⟩ := ih later
        exact ⟨e,Forest.labels_after inside,blank⟩

def settingKeys : List Str :=
  ["nick".toList,"ident".toList,"host".toList,"console".toList,"uhost".toList,"passhash".toList,"hash_type".toList,"flags".toList]

theorem user_keys : ∀ key ∈ "user".toList :: settingKeys, PlainKey key := by
  intro key member
  have words : ∀ key ∈ "user".toList :: settingKeys,
      key ≠ [] ∧ ∀ c ∈ key, (c ≠ CBuffer.nul ∧ c ≠ '\r' ∧ c ≠ '\n' ∧ c ≠ '"') ∧ c ≠ '{' ∧ c ≠ '}' ∧ c ≠ '/' := by decide
  exact plain_word (words key member).1 (words key member).2

theorem optional_member (member : e ∈ optional key value) : ∃ text, value = some text ∧ e = ⟨some key,some text⟩ := by
  obtain ⟨text,inside,rfl⟩ := List.mem_map.mp member
  exact ⟨text,Option.mem_toList.mp inside,rfl⟩

theorem optional_key (key : Str) (value : Option Str) : ((optional key value).map Entry.key).Sublist [some key] := by
  cases value with
  | none => exact List.nil_sublist _
  | some value => exact List.Sublist.refl _

theorem settings_carried (user : User) (flags : user.flags = some value) (plain : ∀ value, some value ∈ fields user → Plain value) :
    (∀ e ∈ settings user, e.Carried) ∧ (settings user).Nodup := by
  have carries : ∀ (key : Str) (field : Option Str), key ∈ settingKeys → field ∈ fields user → ∀ e ∈ optional key field, e.Carried := by
    intro key field named inside e member
    obtain ⟨text,rfl,rfl⟩ := optional_member member
    exact ⟨key,text,rfl,user_keys key (List.mem_cons_of_mem _ named),(plain text inside).legible⟩
  constructor
  · intro e member
    simp only [settings,flags,List.mem_append,List.mem_singleton,or_assoc] at member
    rcases member with nick | ident | host | console | uhost | passhash | hashType | rfl
    · exact carries _ _ (by decide) (by simp [fields]) e nick
    · exact carries _ _ (by decide) (by simp [fields]) e ident
    · exact carries _ _ (by decide) (by simp [fields]) e host
    · exact carries _ _ (by decide) (by simp [fields]) e console
    · exact carries _ _ (by decide) (by simp [fields]) e uhost
    · exact carries _ _ (by decide) (by simp [fields]) e passhash
    · exact carries _ _ (by decide) (by simp [fields]) e hashType
    · exact ⟨_,_,rfl,user_keys _ (by decide),(plain value (by simp [fields,flags])).legible⟩
  · refine List.Nodup.of_map Entry.key (List.Nodup.sublist ?_ (show (settingKeys.map some).Nodup by decide))
    simp only [settings,flags,List.map_append,List.map_singleton]
    exact ((((((((optional_key _ _).append (optional_key _ _)).append (optional_key _ _)).append (optional_key _ _)).append
      (optional_key _ _)).append (optional_key _ _)).append (optional_key _ _)).append (List.Sublist.refl _))

theorem users_row (users : List User) : (usersToTconfig users).row = users.map (fun user => ⟨some "user".toList,some user.username⟩) := by
  induction users with
  | nil => rfl
  | cons user rest ih => simp [usersToTconfig,Forest.row,ih]

theorem users_carried (users : List User) (writable : ∀ user ∈ users, Writable user) (legible : ∀ user ∈ users, Legible user.username)
    (plain : ∀ user ∈ users, ∀ value, some value ∈ fields user → Plain value) (distinct : (users.map User.username).Nodup) :
    Carried (usersToTconfig users) := by
  induction users with
  | nil => trivial
  | cons user rest ih =>
      obtain ⟨apart,distinct⟩ := List.nodup_cons.mp distinct
      refine ⟨⟨_,_,rfl,user_keys _ (by simp),legible user (by simp)⟩,?_,?_,ih (fun other member => writable other (by simp [member]))
        (fun other member => legible other (by simp [member])) (fun other member => plain other (by simp [member])) distinct⟩
      · intro member
        rw [users_row] at member
        obtain ⟨other,inside,same⟩ := List.mem_map.mp member
        have named : other.username = user.username := by simpa using same
        exact apart (List.mem_map.mpr ⟨other,inside,named⟩)
      · split
        · trivial
        · rename_i bare
          obtain ⟨flags,set⟩ := Option.ne_none_iff_exists'.mp ((writable user (by simp)).resolve_right bare)
          obtain ⟨carried,once⟩ := settings_carried user set (plain user (by simp))
          exact leaves_carried carried once

-- The records that come back as they were.
def Survives (user : User) : Prop :=
  Legible user.username ∧ user.realname = none ∧ (user.flags ≠ none ∨ ∀ field ∈ fields user, field = none)

theorem users_append (front back : List User) :
    usersToTconfig (front ++ back) = (usersToTconfig front).append (usersToTconfig back) := by
  induction front with
  | nil => rfl
  | cons user rest ih => rw [List.cons_append,usersToTconfig,usersToTconfig,Forest.append,ih]

theorem users_filled (users : List User) (writable : ∀ user ∈ users, Writable user) : ∀ e ∈ (usersToTconfig users).labels, Filled e := by
  induction users with
  | nil => simp [usersToTconfig,Forest.labels]
  | cons user rest ih =>
      intro e member
      rw [usersToTconfig,Forest.labels,List.mem_cons,List.mem_append] at member
      rcases member with rfl | below | later
      · exact ⟨_,_,rfl⟩
      · split at below
        · cases below
        · rename_i bare
          obtain ⟨flags,set⟩ := Option.ne_none_iff_exists'.mp ((writable user (by simp)).resolve_right bare)
          rw [leaves_labels] at below
          simp only [settings,set,List.mem_append,List.mem_singleton,or_assoc] at below
          rcases below with field | field | field | field | field | field | field | rfl
          all_goals first
            | exact ⟨_,_,rfl⟩
            | obtain ⟨text,-,rfl⟩ := optional_member field
              exact ⟨_,_,rfl⟩
      · exact ih (fun other inside => writable other (by simp [inside])) e later

theorem userField_username (read : userField user child = some later) : later.username = user.username := by
  obtain ⟨key,-,read⟩ := Option.bind_eq_some_iff.mp read
  repeat' split at read
  all_goals
    cases read
    rfl

theorem fields_username {children : List Entry} {user later : User} (read : children.foldlM userField user = some later) :
    later.username = user.username := by
  induction children generalizing user with
  | nil =>
      cases read
      rfl
  | cons child rest ih =>
      rw [List.foldlM_cons] at read
      obtain ⟨middle,first,read⟩ := Option.bind_eq_some_iff.mp read
      exact (ih read).trans (userField_username first)

-- A record that comes back is named by the value of its block.
theorem loaded_named {blocks : List (Entry × Forest Entry)} {found : List (Option User)} (read : blocks.mapM newUserFromTconfigBlock = some found)
    (member : user ∈ found.reduceOption) : ∃ block ∈ blocks, block.1.value = some user.username := by
  obtain ⟨block,inside,made⟩ := mapM_member read (List.reduceOption_mem_iff.mp member)
  refine ⟨block,inside,?_⟩
  obtain ⟨key,named,made⟩ := Option.bind_eq_some_iff.mp made
  split at made
  · obtain ⟨username,valued,made⟩ := Option.bind_eq_some_iff.mp made
    obtain ⟨loaded,filled,made⟩ := Option.bind_eq_some_iff.mp made
    cases made
    have kept : user.username = username := fields_username filled
    rw [kept,valued]
  · cases made

theorem usernames_legible (read : fileBlocks (some contents) blocks) {found : List (Option User)}
    (made : blocks.mapM newUserFromTconfigBlock = some found) (member : user ∈ found.reduceOption) :
    user.username = [] ∨ Legible user.username := by
  obtain ⟨block,inside,valued⟩ := loaded_named made member
  rcases fileBlocks_labels read inside block.1 (by simp) with blank | ⟨key,value,same,-,form⟩
  · rw [blank] at valued
    cases valued
  · rw [same] at valued
    cases valued
    exact form

-- The line of a record without a username is the last that is read.
theorem empty_username {front : List User} (carried : Carried (usersToTconfig front)) (user : User) (empty : user.username = [])
    (back : List User) : ¬fileBlocks (some (text 0 (usersToTconfig (front ++ user :: back)))) blocks := by
  rw [users_append,text_append,usersToTconfig,empty]
  have keyed : PlainKey "user".toList := user_keys _ (by simp)
  generalize "user".toList = key at keyed
  cases (if Bare user then .nil else leaves (settings user)) with
  | nil => exact empty_exits carried keyed false _
  | cons e children rest =>
      intro read
      have lines : fileBlocks (some (text 0 (usersToTconfig front) ++ ((if true then ['\n'] else []) ++ (lineText 0 key [] ++
          (indent 0 ++ ['{','\n'] ++ text 1 (.cons e children rest) ++ indent 0 ++ ['}','\n','\n'] ++ text 0 (usersToTconfig back)))))) blocks := by
        simpa [text,entryText] using read
      exact empty_exits carried keyed true _ lines

theorem saved_same (writable : Writable user) : saved user = user ↔ user.realname = none ∧ (user.flags ≠ none ∨ ∀ field ∈ fields user, field = none) := by
  unfold saved
  split
  · rename_i bare
    obtain ⟨nick,ident,host,uhost,passhash,hashType,flags⟩ := bare
    obtain ⟨username,_,_,_,_,console,realname,_,_,_⟩ := user
    simp only at nick ident host uhost passhash hashType flags
    subst nick ident host uhost passhash hashType flags
    constructor
    · intro same
      cases same
      exact ⟨rfl,.inr (by simp [fields])⟩
    · rintro ⟨rfl,flags | unset⟩
      · exact absurd rfl flags
      · rw [show console = none from unset _ (by simp [fields])]
        rfl
  · rename_i bare
    have flags : user.flags ≠ none := writable.resolve_right bare
    cases user
    simp_all [eq_comm]

theorem Survives.writable (survives : Survives user) : Writable user := by
  rcases survives.2.2 with flags | unset
  · exact .inl flags
  · refine .inr ⟨?_,?_,?_,?_,?_,?_,?_⟩
    all_goals exact unset _ (by simp [fields])

theorem reduce_saved (users : List User) : (users.map (fun user => some (saved user))).reduceOption = users.map saved := by
  induction users with
  | nil => rfl
  | cons user rest ih => rw [List.map_cons,List.reduceOption_cons_of_some,ih,List.map_cons]

theorem saved_all {users : List User} : users.map saved = users ↔ ∀ user ∈ users, saved user = user := by
  have same := List.map_inj_left (l := users) (f := saved) (g := id)
  rwa [List.map_id] at same

theorem users_blocks {users : List User} (some' : users ≠ []) : usersToTconfig users ≠ .nil := by
  cases users with
  | nil => exact absurd rfl some'
  | cons user rest => exact nofun

-- A save comes back where no record leaves a block empty.
theorem save_exists (users : List User) (file : Option Str) : (∃ after, usersSave users file after) ↔ ∀ user ∈ users, Writable user := by
  constructor
  · rintro ⟨after,written⟩ user member
    by_contra unwritable
    exact save_blank (users_unfilled member unwritable) file after written
  · intro writable
    cases users with
    | nil => exact ⟨file,(save_nil file file).mpr rfl⟩
    | cons first rest => exact ⟨_,(save_text (users_filled _ writable) (users_blocks (by simp)) file _).mpr rfl⟩

theorem usersSaves_iff (userfile : Str) (users : List User) (file : Option Str) :
    usersSaves (some userfile) users = some () ↔ ∃ after, usersSave users file after := by
  rw [save_exists,usersSaves]
  split <;> simp_all

section
variable {users : List User} (distinct : (users.map User.username).Nodup)
  (plain : ∀ user ∈ users, ∀ value, some value ∈ fields user → Plain value)
include distinct plain

-- Where every username gets through the file, each record comes back as it was saved.
theorem load_saved (some' : users ≠ []) (writable : ∀ user ∈ users, Writable user) (legible : ∀ user ∈ users, Legible user.username)
    (loaded : List User) : usersLoad (some (text 0 (usersToTconfig users))) loaded ↔ loaded = users.map saved := by
  have carried := users_carried users writable legible plain distinct
  have file := fileBlocks_text carried (users_blocks some')
  have read := users_read users writable
  constructor
  · rintro ⟨blocks,found,file',read',rfl⟩
    rw [fileBlocks_same file file',read] at read'
    cases read'
    exact reduce_saved users
  · rintro rfl
    exact ⟨_,_,file,read,reduce_saved users⟩

-- The user file keeps the records that have flags, or have nothing, and have no realname.
theorem users_kept (file : Option Str) : Kept file users ↔ (users = [] → usersLoad file []) ∧ ∀ user ∈ users, Survives user := by
  by_cases none' : users = []
  · subst none'
    constructor
    · rintro ⟨after,saved,loaded⟩
      rw [(save_nil file after).mp saved] at loaded
      exact ⟨fun _ => loaded,nofun⟩
    · rintro ⟨loaded,-⟩
      exact ⟨file,(save_nil file file).mpr rfl,loaded rfl⟩
  · have some' := users_blocks none'
    constructor
    · rintro ⟨after,written,loaded⟩
      refine ⟨fun none'' => absurd none'' none',?_⟩
      have writable : ∀ user ∈ users, Writable user := (save_exists users file).mp ⟨after,written⟩
      rw [(save_text (users_filled users writable) some' file after).mp written] at loaded
      have legible : ∀ user ∈ users, Legible user.username := by
        obtain ⟨blocks,found,file,made,rfl⟩ := loaded
        have either : ∀ user ∈ found.reduceOption, user.username = [] ∨ Legible user.username :=
          fun user member => usernames_legible file made member
        intro user member
        refine (either user member).resolve_left ?_
        intro empty
        obtain ⟨front,back,split⟩ := List.append_of_mem member
        have before : ∀ user ∈ front, user ∈ found.reduceOption := fun user inside => by rw [split]; simp [inside]
        have apart : ∀ user ∈ front, user.username ≠ [] := by
          intro user inside same
          rw [split,List.map_append,List.map_cons] at distinct
          exact (List.nodup_append.mp distinct).2.2 _ (List.mem_map_of_mem inside) _ (by simp) (same.trans empty.symm)
        have once : (front.map User.username).Nodup := by
          rw [split,List.map_append] at distinct
          exact distinct.of_append_left
        have carried := users_carried front (fun user inside => writable user (before user inside))
          (fun user inside => (either user (before user inside)).resolve_left (apart user inside))
          (fun user inside => plain user (before user inside)) once
        rw [split] at file
        exact empty_username carried user empty back file
      have same := saved_all.mp ((load_saved distinct plain none' writable legible users).mp loaded).symm
      intro user member
      exact ⟨legible user member,(saved_same (writable user member)).mp (same user member)⟩
    · rintro ⟨-,survives⟩
      have writable : ∀ user ∈ users, Writable user := fun user member => (survives user member).writable
      have legible : ∀ user ∈ users, Legible user.username := fun user member => (survives user member).1
      refine ⟨_,(save_text (users_filled users writable) some' file _).mpr rfl,(load_saved distinct plain none' writable legible users).mpr ?_⟩
      exact (saved_all.mpr fun user member => (saved_same (writable user member)).mpr (survives user member).2).symm

end

def dora : User := ⟨"dora".toList,some "dora".toList,none,none,none,some "#bots".toList,none,some "x y".toList,none,some "n".toList⟩
def eve : User := newUser "e\"ve".toList none none none none none none

theorem dora_and_eve_kept : Kept none [dora,eve] := by
  refine (users_kept (by decide) ?_ none).mpr ⟨nofun,?_⟩
  · have clean : ∀ user ∈ [dora,eve], ∀ field ∈ fields user, ∀ value ∈ field,
        value ≠ [] ∧ ∀ c ∈ value, c ≠ CBuffer.nul ∧ c ≠ '\r' ∧ c ≠ '\n' ∧ c ≠ '"' := by decide
    exact fun user member value set => clean user member _ set value rfl
  · have clean : ∀ user ∈ [dora,eve], user.username ≠ [] ∧ (∀ c ∈ user.username, c ≠ CBuffer.nul ∧ c ≠ '\r' ∧ c ≠ '\n') ∧
        ('"' ∈ user.username → user.username.head? ≠ some '"' ∧ ∀ c ∈ user.username, isBlank c = false) := by decide
    have whole : ∀ user ∈ [dora,eve], user.realname = none ∧ (user.flags ≠ none ∨ ∀ field ∈ fields user, field = none) := by decide
    exact fun user member => ⟨clean user member,whole user member⟩

-- A record that has a nick and no flags: the writer stops at the block it leaves empty.
theorem nick_without_flags : ¬∀ (file : Option Str) (users : List User), (users.map User.username).Nodup →
    (∀ user ∈ users, ∀ value, some value ∈ fields user → Plain value) → Kept file users := by
  intro all
  let cid := newUser "cid".toList (some "cid".toList) none none none none none
  have clean : ∀ user ∈ [cid], ∀ field ∈ fields user, ∀ value ∈ field,
      value ≠ [] ∧ ∀ c ∈ value, c ≠ CBuffer.nul ∧ c ≠ '\r' ∧ c ≠ '\n' ∧ c ≠ '"' := by decide
  obtain ⟨after,written,-⟩ := all none [cid] (by decide) (fun user member value set => clean user member _ set value rfl)
  have unwritable : ¬Writable cid := by
    rintro (flags | bare)
    · exact flags rfl
    · exact absurd bare (by decide)
  exact save_blank (users_unfilled (List.mem_singleton.mpr rfl) unwritable) none after written

end Trollbot.Users

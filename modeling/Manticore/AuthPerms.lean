import Manticore.Wildcard
import Mathlib
/-!
# AuthPerms — permission rules and the tables of a SELECT (`auth_perms.cpp`, `auth_proto_mysql.cpp`)

A rule allows or denies an action on a target, a name or a wildcard; the first rule of the list that matches decides
(`ProcessPerms`).  `SqlCheckPerms` asks about one target string for each SELECT, `SearchHandler_c::BuildIndexList`
opens the tables that `ParseIndexList` cuts out of the FROM text and the joined table.  `reads_granted_iff` says for
which batches the check covers all the tables opened.
-/
namespace Manticore
namespace Auth

open Str
open List

/-- `AuthAction_e`. -/
inductive AuthAction
  | read | write | schema | replication | admin | backup | unknown
  deriving DecidableEq, Repr

/-- `UserPerm_t` as `SetTarget` leaves it. -/
structure UserPerm where
  action : AuthAction
  target : Str
  allow : Bool
  trimmed : trim target = target

namespace UserPerm

def targetWildcard (p : UserPerm) : Bool := hasWildcard p.target

def targetWildcardAll (p : UserPerm) : Bool := p.target = [star]

end UserPerm

/-- The loop of `ProcessPerms`; `hasAllow` is what it has seen so far for a request without a target. -/
def processPermsFrom (action : AuthAction) (target : Str) (allowEmpty : Bool) : Bool → List UserPerm → Bool
  | hasAllow, [] => allowEmpty && hasAllow
  | hasAllow, p :: ps =>
    if p.action ≠ action then processPermsFrom action target allowEmpty hasAllow ps
    else if !p.targetWildcard && p.target = target then p.allow
    else if p.targetWildcard && target ≠ [] && (p.targetWildcardAll || Wildcard.wildcardMatch target p.target) then
      p.allow
    else if allowEmpty && target = [] then
      if p.targetWildcardAll then p.allow
      else processPermsFrom action target allowEmpty (hasAllow || p.allow) ps
    else processPermsFrom action target allowEmpty hasAllow ps

/-- `ProcessPerms`. -/
def processPerms (perms : List UserPerm) (action : AuthAction) (target : Str) (allowEmpty : Bool) : Bool :=
  processPermsFrom action target allowEmpty false perms

/-- What `GetAuth` holds: whether authentication is on and the rules of each user. -/
structure AuthUsers where
  enabled : Bool
  userPerms : Str → Option (List UserPerm)

/-- `HasPerms`. -/
def hasPerms (auth : AuthUsers) (user : Str) (action : AuthAction) (target : Str) (allowEmpty : Bool) : Bool :=
  match auth.userPerms user with
  | none => false
  | some perms => !perms.isEmpty && processPerms perms action target allowEmpty

/-- The text of every refusal. -/
def permissionDenied (user : Str) : Str := "Permission denied for user '".toUTF8.toList ++ user ++ [39]

/-- `CheckPerms`. -/
def checkPerms (auth : AuthUsers) (user : Str) (action : AuthAction) (target : Str) (allowEmpty : Bool) :
    Except Str Unit :=
  if hasPerms auth user action target allowEmpty then .ok () else .error (permissionDenied user)

/-- `GetPrefixAuth`: `system.auth_`. -/
def prefixAuth : Str := [115, 121, 115, 116, 101, 109, 46, 97, 117, 116, 104, 95]

/-- The fields of `SqlStmt_t` and of its query that a SELECT fills. -/
structure SqlStmt where
  index : Str
  indexes : Str
  joinIdx : Str
  stringSubkeys : List Str
  deriving DecidableEq

/-- The string that is checked. -/
def SqlStmt.target (stmt : SqlStmt) : Str := if stmt.index = [] then stmt.indexes else stmt.index

/-- `SqlCheckStmtPerms` on a SELECT, `DenyInternalAuthStorageTarget` first. -/
def sqlCheckStmtPerms (auth : AuthUsers) (user : Str) (stmt : SqlStmt) : Except Str Unit :=
  if prefixAuth <:+: stmt.target then .error (permissionDenied user)
  else checkPerms auth user .read stmt.target false

/-- `SqlCheckPerms`. -/
def sqlCheckPerms (auth : AuthUsers) (user : Str) : List SqlStmt → Except Str Unit
  | [] => .ok ()
  | stmt :: stmts =>
    if !auth.enabled then .ok ()
    else
      match sqlCheckStmtPerms auth user stmt with
      | .error e => .error e
      | .ok () => sqlCheckPerms auth user stmts

/-- `IsIndexListChar`. -/
def isIndexListChar (c : UInt8) : Bool :=
  128 ≤ c || (48 ≤ c && c ≤ 57) || (97 ≤ c && c ≤ 122) || (65 ≤ c && c ≤ 90) || c == 45 || c == 95 || c == 46

/-- `ParseIndexList` with the part of a name that is already read. -/
def parseIndexListFrom : Str → Str → List Str
  | name, [] => if name = [] then [] else [name]
  | name, c :: cs =>
    if isIndexListChar c then parseIndexListFrom (name ++ [c]) cs
    else if name = [] then parseIndexListFrom [] cs
    else name :: parseIndexListFrom [] cs

/-- `ParseIndexList`: the runs of name characters. -/
def parseIndexList (indexes : Str) : List Str := parseIndexListFrom [] indexes

/-- The bytes of the lexer's identifiers: `{ID}`, `{ID}:{ID}` and `{INT}{ID}` in backticks. -/
def isIdentChar (c : UInt8) : Bool :=
  128 ≤ c || (48 ≤ c && c ≤ 57) || (97 ≤ c && c ≤ 122) || (65 ≤ c && c ≤ 90) || c == 95 || c == 64 || c == 58

/-- A table name as the grammar reads it. -/
structure TableName where
  text : Str
  nonempty : text ≠ []
  ident : text.all isIdentChar = true

/-- `target_in_select_from`: one table with its subkeys, or a list of at least two tables, each after the first with
the SQL text that stands before it. -/
inductive FromTarget
  | one (name : TableName) (subkeys : List Str)
  | list (first : TableName) (rest : List (Str × TableName))

/-- `TRACK_BOUNDS`: the SQL text from the first name to the last. -/
def boundsText (first : TableName) (rest : List (Str × TableName)) : Str :=
  first.text ++ (rest.map fun p => p.1 ++ p.2.text).flatten

/-- A SELECT: its FROM clause and the table of its JOIN. -/
structure Select where
  source : FromTarget
  join : Option TableName

/-- The bytes of `system`. -/
def systemName : Str := [115, 121, 115, 116, 101, 109]

/-- `FixupSystemTableName`; the name of a cluster is cut off before for the replication user only. -/
def fixupSystemTableName (stmt : SqlStmt) : SqlStmt :=
  match stmt.stringSubkeys with
  | [] => stmt
  | key :: keys =>
    if toLower stmt.index = systemName then
      { stmt with
        index := systemName ++ key, stringSubkeys := keys,
        indexes := if toLower stmt.indexes = systemName then systemName ++ key else stmt.indexes }
    else stmt

section
variable (served : Str → Bool)

/-- `CanonicalizeIndexName`: a name that is not served is lowered. -/
def canonicalizeIndexName (name : Str) : Str := if served name then name else toLower name

/-- The statement that reaches `SqlCheckPerms`: parsed, then `FixupSystemTableName` and `CanonicalizeIndexName`. -/
def Select.stmt (sel : Select) : SqlStmt :=
  let join := (sel.join.map TableName.text).getD []
  let parsed : SqlStmt :=
    match sel.source with
    | .one name subkeys => { index := name.text, indexes := name.text, joinIdx := join, stringSubkeys := subkeys }
    | .list first rest =>
      { index := [], indexes := boundsText first rest, joinIdx := join, stringSubkeys := [] }
  let fixed := fixupSystemTableName parsed
  { fixed with index := canonicalizeIndexName served fixed.index }

/-- The table names that `BuildIndexList` opens, and the joined table.  Its branches for `*` and for `@@` names are
not reached from table names, the one for the tables of `GetPrefixAuth` is refused before.  `FixupSystemTableW`, which puts
a subkey that is left behind a single name `system`, is left out. -/
def Select.opened (sel : Select) : List Str :=
  (parseIndexList (sel.stmt served).indexes).map (canonicalizeIndexName served) ++
    if (sel.stmt served).joinIdx = [] then [] else [canonicalizeIndexName served (sel.stmt served).joinIdx]

/-- The batch as `SqlCheckPerms` sees it. -/
def checkBatch (auth : AuthUsers) (user : Str) (batch : List Select) : Except Str Unit :=
  sqlCheckPerms auth user (batch.map (Select.stmt served))

end

/-! ## The rules -/

variable {action : AuthAction} {target : Str}

theorem checkPerms_ok {auth : AuthUsers} {user : Str} {allowEmpty : Bool} :
    checkPerms auth user action target allowEmpty = .ok () ↔ hasPerms auth user action target allowEmpty = true := by
  unfold checkPerms
  split
  · rename_i h
    exact ⟨fun _ => h, fun _ => rfl⟩
  · rename_i h
    constructor
    · intro he
      cases he
    · exact fun ht => absurd ht h

/-- An accepted batch has every one of its targets allowed. -/
theorem sqlCheckPerms_ok {auth : AuthUsers} {user : Str} (hon : auth.enabled = true) : ∀ (stmts : List SqlStmt),
    sqlCheckPerms auth user stmts = .ok () ↔
      ∀ stmt ∈ stmts, ¬ prefixAuth <:+: stmt.target ∧ checkPerms auth user .read stmt.target false = .ok ()
  | [] => by simp [sqlCheckPerms]
  | stmt :: stmts => by
    rw [sqlCheckPerms, hon, forall_mem_cons, ← sqlCheckPerms_ok hon stmts, sqlCheckStmtPerms]
    by_cases hp : prefixAuth <:+: stmt.target
    · simp [hp]
    · cases hc : checkPerms auth user .read stmt.target false with
      | error e => simp [hp]
      | ok u => simp [hp]

/-- The rule that denies one name. -/
def denyRule (name : Str) (h : Plain name) : UserPerm := ⟨.read, name, false, h.trim⟩

/-- The rule that allows everything. -/
def allowAll : UserPerm := ⟨.read, [star], true, by decide⟩

theorem processPermsFrom_name {p : UserPerm} (ps : List UserPerm) (hasAllow : Bool)
    (ha : p.action = action) (hw : p.targetWildcard = false) :
    processPermsFrom action target false hasAllow (p :: ps) =
      if p.target = target then p.allow else processPermsFrom action target false hasAllow ps := by
  rw [processPermsFrom, ha, hw]
  by_cases ht : p.target = target <;> simp [ht]

theorem processPermsFrom_all {p : UserPerm} (ps : List UserPerm) (hasAllow : Bool)
    (ha : p.action = action) (hall : p.target = [star]) (hne : target ≠ []) :
    processPermsFrom action target false hasAllow (p :: ps) = p.allow := by
  have hw : p.targetWildcard = true := by
    rw [UserPerm.targetWildcard, hall]
    decide
  have hwa : p.targetWildcardAll = true := by
    rw [UserPerm.targetWildcardAll, hall]
    decide
  rw [processPermsFrom, ha, hw, hwa]
  simp [hne]

variable {name : Str}

theorem processPerms_deny (h : Plain name) (target : Str) (hne : target ≠ []) :
    processPerms [denyRule name h, allowAll] .read target false = decide (target ≠ name) := by
  have hw : (denyRule name h).targetWildcard = false := h.hasWildcard
  have ha : (denyRule name h).action = .read := rfl
  have hall : allowAll.action = .read := rfl
  rw [processPerms, processPermsFrom_name _ _ ha hw, processPermsFrom_all _ _ hall rfl hne]
  by_cases ht : name = target
  · simp [denyRule, ht]
  · simp [denyRule, allowAll, ht, Ne.symm ht]

/-- Authentication with one list of rules for every user. -/
def withRules (perms : List UserPerm) : AuthUsers := ⟨true, fun _ => some perms⟩

theorem checkPerms_deny (h : Plain name) (user target : Str) (hne : target ≠ []) :
    checkPerms (withRules [denyRule name h, allowAll]) user .read target false = .ok () ↔ target ≠ name := by
  rw [checkPerms_ok, hasPerms, withRules]
  simp [processPerms_deny h target hne]

/-! ## The names -/

theorem isIndexListChar_plain (c : UInt8) (h : isIndexListChar c = true) : isWild c = false ∧ isSpace c = false := by
  revert h
  revert c
  decide +kernel

theorem isIdentChar_plain (c : UInt8) (h : isIdentChar c = true) : isWild c = false ∧ isSpace c = false := by
  revert h
  revert c
  decide +kernel

theorem TableName.plain (name : TableName) : Plain name.text :=
  fun c hc => isIdentChar_plain c (all_eq_true.1 name.ident c hc)

theorem mem_parseIndexListFrom : ∀ (s name t : Str), (∀ c ∈ name, isIndexListChar c = true) →
    t ∈ parseIndexListFrom name s → t ≠ [] ∧ ∀ c ∈ t, isIndexListChar c = true
  | [], name, t, hn, ht => by
    rw [parseIndexListFrom] at ht
    split at ht
    · cases ht
    · rename_i hne
      rw [mem_singleton.1 ht]
      exact ⟨hne, hn⟩
  | c :: cs, name, t, hn, ht => by
    rw [parseIndexListFrom] at ht
    split at ht
    · rename_i hc
      refine mem_parseIndexListFrom cs _ t (fun d hd => ?_) ht
      rcases List.mem_append.1 hd with hd | hd
      · exact hn d hd
      · rw [mem_singleton.1 hd]
        exact hc
    · split at ht
      · exact mem_parseIndexListFrom cs _ t (by simp) ht
      · rename_i hne
        rcases mem_cons.1 ht with rfl | ht
        · exact ⟨hne, hn⟩
        · exact mem_parseIndexListFrom cs _ t (by simp) ht

section
variable (served : Str → Bool)

theorem plain_canonicalizeIndexName (h : Plain name) : Plain (canonicalizeIndexName served name) := by
  unfold canonicalizeIndexName
  split
  · exact h
  · exact h.toLower

theorem canonicalizeIndexName_ne_nil (h : name ≠ []) : canonicalizeIndexName served name ≠ [] := by
  unfold canonicalizeIndexName
  split
  · exact h
  · exact fun h' => h (map_eq_nil_iff.1 h')

theorem stmt_joinIdx (sel : Select) : (sel.stmt served).joinIdx = (sel.join.map TableName.text).getD [] := by
  unfold Select.stmt fixupSystemTableName
  cases sel.source with
  | one name subkeys =>
    cases subkeys with
    | nil => rfl
    | cons key keys =>
      simp only
      split <;> rfl
  | list first rest => rfl

theorem opened_plain {sel : Select} {t : Str} (h : t ∈ sel.opened served) : t ≠ [] ∧ Plain t := by
  rcases List.mem_append.1 h with h | h
  · obtain ⟨name, hname, rfl⟩ := mem_map.1 h
    obtain ⟨hne, hc⟩ := mem_parseIndexListFrom _ _ name (by simp) hname
    exact ⟨canonicalizeIndexName_ne_nil served hne,
      plain_canonicalizeIndexName served fun c hm => isIndexListChar_plain c (hc c hm)⟩
  · split at h
    · cases h
    · rename_i hne
      rw [mem_singleton.1 h]
      refine ⟨canonicalizeIndexName_ne_nil served hne, plain_canonicalizeIndexName served fun c hm => ?_⟩
      rw [stmt_joinIdx] at hm
      cases hj : sel.join with
      | none =>
        rw [hj] at hm
        cases hm
      | some name =>
        rw [hj] at hm
        exact name.plain c hm

theorem target_ne_nil (sel : Select) : (sel.stmt served).target ≠ [] := by
  unfold SqlStmt.target
  split
  · rename_i hi
    unfold Select.stmt fixupSystemTableName at hi ⊢
    cases hs : sel.source with
    | one name subkeys =>
      simp only [hs] at hi
      refine absurd hi (canonicalizeIndexName_ne_nil served ?_)
      cases subkeys with
      | nil => exact name.nonempty
      | cons key keys =>
        simp only
        split
        · exact append_ne_nil_of_left_ne_nil (by decide) _
        · exact name.nonempty
    | list first rest =>
      exact append_ne_nil_of_left_ne_nil first.nonempty _
  · assumption

/-- **The permission check covers a batch exactly when every table the batch opens is, alone, the target of one of its
statements**; a batch that names the tables of the authentication storage is refused whatever the rules are. -/
theorem reads_granted_iff (user : Str) (batch : List Select) :
    (∀ auth : AuthUsers, auth.enabled = true → checkBatch served auth user batch = .ok () →
      ∀ sel ∈ batch, ∀ t ∈ sel.opened served, checkPerms auth user .read t false = .ok ()) ↔
    (∃ sel ∈ batch, prefixAuth <:+: (sel.stmt served).target) ∨
      ∀ sel ∈ batch, ∀ t ∈ sel.opened served, ∃ sel' ∈ batch, (sel'.stmt served).target = t := by
  constructor
  · intro hall
    by_cases hp : ∃ sel ∈ batch, prefixAuth <:+: (sel.stmt served).target
    · exact .inl hp
    · refine .inr fun sel hsel t ht => ?_
      by_contra hno
      -- these rules accept every other name, so they accept the batch and refuse `t`
      obtain ⟨hne, hplain⟩ := opened_plain served ht
      have hok : checkBatch served (withRules [denyRule t hplain, allowAll]) user batch = .ok () := by
        refine (sqlCheckPerms_ok rfl _).2 fun stmt hstmt => ?_
        obtain ⟨sel', hsel', rfl⟩ := mem_map.1 hstmt
        refine ⟨fun h => hp ⟨sel', hsel', h⟩, ?_⟩
        rw [checkPerms_deny hplain user _ (target_ne_nil served sel')]
        exact fun h => hno ⟨sel', hsel', h⟩
      have hdeny := hall _ rfl hok sel hsel t ht
      exact (checkPerms_deny hplain user t hne).1 hdeny rfl
  · rintro (⟨sel, hsel, hp⟩ | hcov) auth hon hok
    · exact absurd hp ((sqlCheckPerms_ok hon _).1 hok _ (mem_map_of_mem hsel)).1
    · intro sel hsel t ht
      obtain ⟨sel', hsel', rfl⟩ := hcov sel hsel t ht
      exact ((sqlCheckPerms_ok hon _).1 hok _ (mem_map_of_mem hsel')).2

end

/-- The tables `docs` and `logs`. -/
def docs : TableName := ⟨[100, 111, 99, 115], by decide, rfl⟩
def logs : TableName := ⟨[108, 111, 103, 115], by decide, rfl⟩

/-- **A denied table is read through a list**: with READ denied on `logs` and allowed on `*`,
`SELECT ... FROM docs, logs` and `SELECT ... FROM docs JOIN logs` are accepted, both open `logs`, and the rules refuse
`logs` alone. -/
theorem denied_table_in_list : let auth := withRules [denyRule logs.text logs.plain, allowAll]
    let list : Select := ⟨.list docs [([44, 32], logs)], none⟩
    let join : Select := ⟨.one docs [], some logs⟩
    checkBatch (fun _ => true) auth [117] [list, join] = .ok () ∧
      logs.text ∈ list.opened (fun _ => true) ∧ logs.text ∈ join.opened (fun _ => true) ∧
      checkPerms auth [117] .read logs.text false = .error (permissionDenied [117]) := by
  refine ⟨rfl, by decide, by decide, rfl⟩

end Auth
end Manticore

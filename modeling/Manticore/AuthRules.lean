import Manticore.AuthPerms
import Manticore.WildcardAll
/-!
# AuthRules — what the rules of a user decide (`auth_perms.cpp`, `auth_common.cpp`, `auth.cpp`, `api_search.cpp`)

`SortUserPerms` puts the rules of an action that deny before those that allow, so the first rule that matches denies
whenever any does.  `CheckUnrestrictedPerms` asks for the text `*`, and an API search asks for the text of its first
query.
-/
namespace Manticore
namespace Auth

open Str
open List

variable {action : AuthAction} {target : Str} {perms : List UserPerm}

/-! ## The rules of a user -/

/-- What names a rule: `CommitPerm` replaces the rule with the same action and target. -/
def UserPerm.key (p : UserPerm) : AuthAction × Str := (p.action, p.target)

/-- The list of `CommitPerm` before it is sorted. -/
def commitPerm (p : UserPerm) : List UserPerm → List UserPerm
  | [] => [p]
  | q :: qs => if q.key = p.key then p :: qs else q :: commitPerm p qs

/-- `CmpPerm_fn::IsLess`. -/
def isLess (a b : UserPerm) : Bool :=
  if a.action ≠ b.action then a.action.ctorIdx < b.action.ctorIdx
  else if a.allow ≠ b.allow then !a.allow
  else if a.targetWildcard ≠ b.targetWildcard then !a.targetWildcard
  else false

/-- `SortUserPerms`: the order of rules that compare equal is left open. -/
structure SortUserPerms (dPerms perms : List UserPerm) : Prop where
  perm : perms.Perm dPerms
  sorted : perms.Pairwise fun a b => isLess b a = false

/-- The rules of a user after commits, newest first.  A rule without a target is refused before it gets here. -/
inductive Committed : List UserPerm → List UserPerm → Prop where
  | nil : Committed [] []
  | commit {p : UserPerm} {commits before after : List UserPerm} : Committed commits before → p.target ≠ [] →
      SortUserPerms (commitPerm p before) after → Committed (p :: commits) after

/-- The rules in force after commits, newest first. -/
def inForce : List UserPerm → List UserPerm
  | [] => []
  | p :: commits => p :: (inForce commits).filter fun q => q.key ≠ p.key

/-- The rules in force and the list that `HasPerms` scans: after commits, or loaded by `ReadPerms`. -/
inductive Kept : List UserPerm → List UserPerm → Prop where
  | committed {commits perms : List UserPerm} : Committed commits perms → Kept (inForce commits) perms
  | loaded {rules perms : List UserPerm} : (∀ p ∈ rules, p.target ≠ []) → SortUserPerms rules perms → Kept rules perms

theorem keys_commitPerm (p : UserPerm) : ∀ l : List UserPerm, (commitPerm p l).map UserPerm.key =
      if p.key ∈ l.map UserPerm.key then l.map UserPerm.key else l.map UserPerm.key ++ [p.key]
  | [] => rfl
  | q :: qs => by
    rw [commitPerm]
    split
    · rename_i h
      rw [map_cons, map_cons, h, if_pos mem_cons_self]
    · rename_i h
      rw [map_cons, keys_commitPerm p qs, map_cons]
      split
      · rename_i hmem
        rw [if_pos (mem_cons_of_mem _ hmem)]
      · rename_i hmem
        rw [if_neg fun hm => (mem_cons.mp hm).elim (fun he => h he.symm) hmem, cons_append]

theorem mem_commitPerm {p q : UserPerm} : ∀ {l : List UserPerm}, (l.map UserPerm.key).Nodup →
    (q ∈ commitPerm p l ↔ q = p ∨ q ∈ l ∧ q.key ≠ p.key)
  | [], _ => by simp [commitPerm]
  | r :: rs, h => by
    obtain ⟨hr, hrs⟩ := nodup_cons.mp (map_cons ▸ h)
    rw [commitPerm]
    split
    · rename_i hkey
      -- the rule replaced is the only one with the key
      have hother : q ∈ rs → q.key ≠ p.key := fun hq he => hr (he.trans hkey.symm ▸ mem_map_of_mem hq)
      have hself : q = r → q.key = p.key := fun he => he ▸ hkey
      simp only [mem_cons]
      tauto
    · rename_i hkey
      have hself : q = r → q.key ≠ p.key := fun he => he ▸ hkey
      simp only [mem_cons, mem_commitPerm hrs]
      tauto

variable {commits : List UserPerm}

section
variable (h : Committed commits perms)
include h

theorem Committed.rules :
    (perms.map UserPerm.key).Nodup ∧ ∀ q, q ∈ perms ↔ q ∈ inForce commits := by
  induction h with
  | nil => exact ⟨nodup_nil, fun q => Iff.rfl⟩
  | commit _ _ hsort ih =>
    refine ⟨?_, fun q => ?_⟩
    · rw [(hsort.perm.map _).nodup_iff, keys_commitPerm]
      split
      · exact ih.1
      · rename_i hnew
        exact nodup_append.mpr ⟨ih.1, nodup_singleton _, fun a ha b hb he => hnew (mem_singleton.mp hb ▸ he ▸ ha)⟩
    · rw [hsort.perm.mem_iff, mem_commitPerm ih.1, inForce, mem_cons, mem_filter, ih.2 q, decide_eq_true_iff]

theorem Committed.sorted : perms.Pairwise fun a b => isLess b a = false := by
  cases h with
  | nil => exact .nil
  | commit _ _ hsort => exact hsort.sorted

theorem Committed.target_ne : ∀ q ∈ perms, q.target ≠ [] := by
  induction h with
  | nil => exact forall_mem_nil _
  | commit hprev hne hsort ih =>
    intro q hq
    rcases (mem_commitPerm hprev.rules.1).mp (hsort.perm.mem_iff.mp hq) with rfl | hq
    · exact hne
    · exact ih q hq.1

end

/-! ## The decision -/

/-- What a rule matches, among the targets that are not empty. -/
def UserPerm.matches (p : UserPerm) (target : Str) : Bool :=
  if p.targetWildcard then p.targetWildcardAll || Wildcard.wildcardMatch target p.target else p.target = target

/-- The rule is of the action and matches. -/
def UserPerm.asked (action : AuthAction) (target : Str) (p : UserPerm) : Bool := p.action = action && p.matches target

theorem UserPerm.asked_iff {p : UserPerm} : p.asked action target = true ↔ p.action = action ∧ p.matches target = true := by
  simp [asked]

theorem processPermsFrom_find (hne : target ≠ []) (allowEmpty hasAllow : Bool) : ∀ perms : List UserPerm,
    processPermsFrom action target allowEmpty hasAllow perms =
      ((perms.find? (UserPerm.asked action target)).map UserPerm.allow).getD (allowEmpty && hasAllow)
  | [] => rfl
  | p :: ps => by
    rw [processPermsFrom, processPermsFrom_find hne allowEmpty hasAllow ps, find?_cons, UserPerm.asked, UserPerm.matches]
    by_cases ha : p.action = action
    · cases hw : p.targetWildcard
      · by_cases ht : p.target = target <;> simp [ha, ht, hne]
      · cases hm : p.targetWildcardAll || Wildcard.wildcardMatch target p.target <;> simp [ha, hne]
    · simp [ha]

theorem allow_of_isLess {a b : UserPerm} (h : isLess b a = false) (hab : a.action = b.action) (ha : a.allow = true) :
    b.allow = true := by
  by_contra hb
  simp [isLess, hab, ha, hb] at h

/-- The rules of the action that deny come first. -/
def DenyFirst (action : AuthAction) (perms : List UserPerm) : Prop :=
  perms.Pairwise fun a b => a.action = action → b.action = action → a.allow = true → b.allow = true

theorem denyFirst (action : AuthAction) (h : perms.Pairwise fun a b => isLess b a = false) : DenyFirst action perms :=
  h.imp fun hl ha hb => allow_of_isLess hl (ha.trans hb.symm)

theorem find_allow_iff {ask : UserPerm → Bool} (hask : ∀ p, ask p = true → p.action = action) :
    ∀ {perms : List UserPerm}, DenyFirst action perms → (((perms.find? ask).map UserPerm.allow).getD false = true ↔
      (∃ p ∈ perms, ask p = true ∧ p.allow = true) ∧ ∀ p ∈ perms, ask p = true → p.allow = true)
  | [], _ => by simp
  | p :: ps, h => by
    obtain ⟨hp, hps⟩ := pairwise_cons.mp h
    cases hq : ask p
    · simp [hq, find_allow_iff hask hps]
    · cases hal : p.allow
      · simp [hq, hal]
      · have hrest : ∀ q ∈ ps, ask q = true → q.allow = true := fun q hm ha => hp q hm (hask p hq) (hask q ha) hal
        simpa [hq, hal] using hrest

/-- Without a target: `*` decides, else any rule that allows. -/
theorem processPermsFrom_empty : ∀ {perms : List UserPerm} {hasAllow : Bool}, DenyFirst action perms →
    (∀ p ∈ perms, p.target ≠ []) → (processPermsFrom action [] true hasAllow perms = true ↔
      (hasAllow = true ∨ ∃ p ∈ perms, p.action = action ∧ p.allow = true) ∧
        ∀ p ∈ perms, p.action = action → p.target = [star] → p.allow = true)
  | [], hasAllow, _, _ => by simp [processPermsFrom]
  | p :: ps, hasAllow, h, hne => by
    obtain ⟨hp, hps⟩ := pairwise_cons.mp h
    obtain ⟨hpt, hpts⟩ := forall_mem_cons.mp hne
    rw [processPermsFrom]
    by_cases ha : p.action = action
    · by_cases hall : p.target = [star]
      · cases hal : p.allow
        · simp [ha, hall, hal, UserPerm.targetWildcardAll]
        · have hrest : ∀ q ∈ ps, q.action = action → q.allow = true := fun q hm hqa => hp q hm ha hqa hal
          simpa [ha, hall, hal, UserPerm.targetWildcardAll] using fun q hm hqa _ => hrest q hm hqa
      · simp [ha, hall, hpt, UserPerm.targetWildcardAll, processPermsFrom_empty hps hpts, or_assoc]
    · simp [ha, processPermsFrom_empty hps hpts]

/-- **A rule that denies wins, whatever the order of the commits was.**  For a target, `HasPerms` holds exactly when a
rule in force of the action allows and matches and none denies and matches; without a target, where that is allowed,
exactly when a rule in force of the action allows and none denies `*`. -/
theorem hasPerms_iff {auth : AuthUsers} {user : Str} {rules : List UserPerm} (huser : auth.userPerms user = some perms)
    (hkept : Kept rules perms) (action : AuthAction) :
    (∀ (target : Str) (allowEmpty : Bool), target ≠ [] → (hasPerms auth user action target allowEmpty = true ↔
      (∃ p ∈ rules, p.action = action ∧ p.matches target = true ∧ p.allow = true) ∧
        ∀ p ∈ rules, p.action = action → p.matches target = true → p.allow = true)) ∧
    (hasPerms auth user action [] true = true ↔
      (∃ p ∈ rules, p.action = action ∧ p.allow = true) ∧
        ∀ p ∈ rules, p.action = action → p.target = [star] → p.allow = true) := by
  obtain ⟨hmem, hsorted, hne⟩ : (∀ q, q ∈ perms ↔ q ∈ rules) ∧ (perms.Pairwise fun a b => isLess b a = false) ∧
      ∀ q ∈ perms, q.target ≠ [] := by
    cases hkept with
    | committed h => exact ⟨h.rules.2, h.sorted, h.target_ne⟩
    | loaded hne h => exact ⟨fun q => h.perm.mem_iff, h.sorted, fun q hq => hne q (h.perm.mem_iff.mp hq)⟩
  have hfirst := denyFirst action hsorted
  -- a list without rules has none that allows
  have hscan : ∀ target allowEmpty, hasPerms auth user action target allowEmpty = processPerms perms action target allowEmpty := by
    intro target allowEmpty
    rw [hasPerms, huser]
    cases perms with
    | nil => simp [processPerms, processPermsFrom]
    | cons p ps => rfl
  simp only [← hmem, hscan]
  constructor
  · intro target allowEmpty htarget
    rw [processPerms, processPermsFrom_find htarget, Bool.and_false,
      find_allow_iff (fun p hp => (UserPerm.asked_iff.mp hp).1) hfirst]
    simp only [UserPerm.asked_iff, and_assoc, and_imp]
  · rw [processPerms, processPermsFrom_empty hfirst hne]
    simp only [Bool.false_eq_true, false_or]

theorem kept_denyRule : Kept [denyRule logs.text logs.plain, allowAll] [denyRule logs.text logs.plain, allowAll] :=
  .loaded (by simp [denyRule, allowAll, logs]) ⟨.refl _, pairwise_pair.mpr rfl⟩

theorem hasPerms_docs : hasPerms (withRules [denyRule logs.text logs.plain, allowAll]) [117] .read docs.text false = true :=
  ((hasPerms_iff rfl kept_denyRule .read).1 docs.text false docs.nonempty).mpr
    ⟨⟨allowAll, by simp, rfl, rfl, rfl⟩, by simp [denyRule, allowAll]; decide⟩

/-! ## Unrestricted access -/

/-- `CheckUnrestrictedPerms`. -/
def checkUnrestrictedPerms (auth : AuthUsers) (user : Str) (action : AuthAction) : Except Str Unit :=
  let hasDeny := (auth.userPerms user).any fun perms => perms.any fun p => p.action = action && !p.allow
  if !hasDeny && hasPerms auth user action [star] false then .ok () else .error (permissionDenied user)

theorem hasPerms_of_no_deny {auth : AuthUsers} {user : Str} (huser : auth.userPerms user = some perms)
    (hno : ∀ p ∈ perms, p.action = action → p.allow = true) (hne : target ≠ []) :
    hasPerms auth user action target false = true ↔ ∃ p ∈ perms, p.action = action ∧ p.matches target = true := by
  have hfirst : DenyFirst action perms := pairwise_of_forall_mem_list fun _ _ b hb _ hba _ => hno b hb hba
  rw [hasPerms, huser]
  simp only [processPerms, processPermsFrom_find hne, Bool.and_false, Bool.and_eq_true,
    find_allow_iff (fun p hp => (UserPerm.asked_iff.mp hp).1) hfirst, UserPerm.asked_iff]
  constructor
  · rintro ⟨-, ⟨p, hp, hask, -⟩, -⟩
    exact ⟨p, hp, hask⟩
  · rintro ⟨p, hp, hask⟩
    exact ⟨by simpa using ne_nil_of_mem hp, ⟨p, hp, hask, hno p hp hask.1⟩, fun q hq ha => hno q hq ha.1⟩

theorem UserPerm.matches_all_iff {p : UserPerm} :
    (∀ target, target ≠ [] → p.matches target = true) ↔ Wildcard.Everything p.target := by
  have hall : Wildcard.Everything [star] := ⟨by decide, 0, 0, .inl rfl⟩
  unfold UserPerm.matches
  cases hw : p.targetWildcard with
  | false =>
    refine ⟨fun h => ?_, fun h => ?_⟩
    · -- a name is not two names
      have h₁ := of_decide_eq_true (h [97] (by decide))
      have h₂ := of_decide_eq_true (h [98] (by decide))
      exact absurd (h₁.symm.trans h₂) (by decide)
    · have hstar : star ∈ p.target := by
        obtain ⟨-, m, j, h | h | h⟩ := h <;> rw [h] <;> simp [replicate_succ]
      have hwild : p.targetWildcard = true := any_eq_true.mpr ⟨Str.star, hstar, rfl⟩
      rw [hw] at hwild
      cases hwild
  | true =>
    rw [← Wildcard.match_all_iff]
    by_cases hs : p.target = [Str.star]
    · rw [hs]
      refine iff_of_true (fun t _ => ?_) (Wildcard.match_all_iff.mpr hall)
      simp [targetWildcardAll, hs]
    · simp [targetWildcardAll, hs]

/-- What has to hold of the rules of an action for unrestricted access to mean every table: one of them denies, one of them
matches every name, or no pattern matches the text `*`. -/
def Restrained (action : AuthAction) (perms : List UserPerm) : Prop :=
  (∃ p ∈ perms, p.action = action ∧ p.allow = false) ∨ (∃ p ∈ perms, p.action = action ∧ Wildcard.Everything p.target) ∨
    ∀ p ∈ perms, p.action = action → p.matches [star] = false

theorem checkUnrestrictedPerms_ok {auth : AuthUsers} {user : Str} (huser : auth.userPerms user = some perms) :
    checkUnrestrictedPerms auth user action = .ok () ↔ (∀ p ∈ perms, p.action = action → p.allow = true) ∧
      ∃ p ∈ perms, p.action = action ∧ p.matches [star] = true := by
  by_cases hno : ∀ p ∈ perms, p.action = action → p.allow = true
  · have hfound : (perms.any fun p => p.action = action && !p.allow) = false := by
      simpa [any_eq_false] using hno
    rw [← hasPerms_of_no_deny huser hno (show [star] ≠ [] by decide), and_iff_right hno]
    cases h : hasPerms auth user action [star] false <;> simp [checkUnrestrictedPerms, huser, hfound, h]
  · have hfound : (perms.any fun p => p.action = action && !p.allow) = true := by
      simpa [any_eq_true] using hno
    exact iff_of_false (by simp [checkUnrestrictedPerms, huser, hfound]) (fun h => hno h.1)

/-- **When unrestricted access means every table**: when the rules are `Restrained`, and, for a user with one rule of the
action, only then. -/
theorem unrestricted_covers (auth : AuthUsers) (user : Str) (action : AuthAction) :
    ((∀ perms, auth.userPerms user = some perms → Restrained action perms) →
      checkUnrestrictedPerms auth user action = .ok () →
        ∀ target, target ≠ [] → checkPerms auth user action target false = .ok ()) ∧
    ∀ perms, auth.userPerms user = some perms → (perms.filter fun p => p.action = action).length = 1 →
      (checkUnrestrictedPerms auth user action = .ok () →
        ∀ target, target ≠ [] → checkPerms auth user action target false = .ok ()) → Restrained action perms := by
  constructor
  · intro hrules hopen target htarget
    cases huser : auth.userPerms user with
    | none => simp [checkUnrestrictedPerms, huser, hasPerms] at hopen
    | some perms =>
      obtain ⟨hno, p, hp, ha, hstar⟩ := (checkUnrestrictedPerms_ok huser).mp hopen
      rw [checkPerms_ok, hasPerms_of_no_deny huser hno htarget]
      rcases hrules perms huser with ⟨q, hq, hqa, hdeny⟩ | ⟨q, hq, hqa, hall⟩ | hnone
      · rw [hno q hq hqa] at hdeny
        cases hdeny
      · exact ⟨q, hq, hqa, UserPerm.matches_all_iff.mpr hall target htarget⟩
      · rw [hnone p hp ha] at hstar
        cases hstar
  · intro perms huser hone hcovers
    by_contra hrules
    simp only [Restrained, not_or, not_exists, not_and, not_forall] at hrules
    obtain ⟨hdeny, hall, p, hp, ha, hstar⟩ := hrules
    have hno : ∀ q ∈ perms, q.action = action → q.allow = true := fun q hq hqa => Bool.of_not_eq_false (hdeny q hq hqa)
    -- the only rule would have to match every name
    obtain ⟨rule, hrule⟩ := length_eq_one_iff.mp hone
    have honly : ∀ q ∈ perms, q.action = action → q = rule := by
      intro q hq hqa
      have hmem : q ∈ perms.filter fun p => p.action = action := mem_filter.mpr ⟨hq, decide_eq_true hqa⟩
      rw [hrule] at hmem
      exact mem_singleton.mp hmem
    refine hall p hp ha (UserPerm.matches_all_iff.mp (fun target htarget => ?_))
    have hok := hcovers ((checkUnrestrictedPerms_ok huser).mpr ⟨hno, p, hp, ha, Bool.of_not_eq_false hstar⟩) target htarget
    rw [checkPerms_ok, hasPerms_of_no_deny huser hno htarget] at hok
    obtain ⟨q, hq, hqa, hm⟩ := hok
    rwa [honly p hp ha, ← honly q hq hqa]

/-- The rule that allows the names of one character. -/
def oneCharacter : UserPerm := ⟨.read, [quest], true, by decide⟩

/-- The pattern `?` matches the text `*`, so its user has unrestricted access, and cannot read `docs`. -/
theorem unrestricted_without_docs : checkUnrestrictedPerms (withRules [oneCharacter]) [117] .read = .ok () ∧
    checkPerms (withRules [oneCharacter]) [117] .read docs.text false = .error (permissionDenied [117]) :=
  ⟨rfl, rfl⟩

/-! ## API searches -/

/-- The name of a local table. -/
structure LocalTable where
  name : Str
  nonempty : name ≠ []
  chars : name.all isIndexListChar = true

/-- The tables that `BuildIndexList` opens for the list of one query: all local ones for `*`, none for a system
variable, the whole text for a table of `GetPrefixAuth`, where it is a name at all.  An API query has no subkeys for
`FixupSystemTableW`. -/
def apiOpened (served : Str → Bool) (locals : List LocalTable) (indexes : Str) : List Str :=
  if indexes = [star] then locals.map LocalTable.name
  else if [64, 64] <+: indexes then []
  else if prefixAuth <+: indexes then if indexes.all isIndexListChar then [indexes] else []
  else (parseIndexList indexes).map (canonicalizeIndexName served)

theorem hasPerms_nil {auth : AuthUsers} {user : Str}
    (h : ∀ perms, auth.userPerms user = some perms → ∀ p ∈ perms, p.target ≠ []) :
    hasPerms auth user action [] false = false := by
  have hscan : ∀ {perms : List UserPerm}, (∀ p ∈ perms, p.target ≠ []) →
      processPermsFrom action [] false false perms = false := by
    intro perms hne
    induction perms with
    | nil => rfl
    | cons p ps ih => simp [processPermsFrom, (forall_mem_cons.mp hne).1, ih (forall_mem_cons.mp hne).2]
  rw [hasPerms]
  cases huser : auth.userPerms user with
  | none => rfl
  | some perms => simp [processPerms, hscan (h perms huser)]

/-- `ApiCheckPerms`. -/
def apiCheckPerms (auth : AuthUsers) (user : Str) (action : AuthAction) (target : Str) : Except Str Unit :=
  if !auth.enabled then .ok () else checkPerms auth user action target false

/-- `HandleCommandSearch` from the parsed queries on, each by its table list: the queries that it runs.  It assumes
that they are all to the same table. -/
def handleCommandSearch (auth : AuthUsers) (user : Str) (queries : List Str) : Except Str (List Str) :=
  (apiCheckPerms auth user .read (queries.headD [])).map fun _ => queries

theorem apiOpened_plain {served : Str → Bool} {locals : List LocalTable} {indexes t : Str}
    (h : t ∈ apiOpened served locals indexes) : t ≠ [] ∧ Plain t := by
  have hplain : ∀ {name : Str}, name.all isIndexListChar = true → Plain name := fun hc c hm =>
    isIndexListChar_plain c (all_eq_true.mp hc c hm)
  unfold apiOpened at h
  split_ifs at h with hstar hsys hauth hname
  · obtain ⟨table, -, rfl⟩ := mem_map.mp h
    exact ⟨table.nonempty, hplain table.chars⟩
  · cases h
  · rw [mem_singleton.mp h]
    exact ⟨fun hnil => absurd (hnil ▸ hauth) (by decide), hplain hname⟩
  · cases h
  · obtain ⟨name, hname, rfl⟩ := mem_map.mp h
    obtain ⟨hne, hc⟩ := mem_parseIndexListFrom _ _ name (by simp) hname
    exact ⟨canonicalizeIndexName_ne_nil served hne, plain_canonicalizeIndexName served (hplain (all_eq_true.mpr hc))⟩

/-- **An API search stays within the granted tables exactly when every table that its queries open is the whole list
of the first one** (or that list is empty, and nothing is granted). -/
theorem api_reads_granted_iff (served : Str → Bool) (locals : List LocalTable) (user : Str) (queries : List Str) :
    (∀ auth : AuthUsers, auth.enabled = true →
      (∀ perms, auth.userPerms user = some perms → ∀ p ∈ perms, p.target ≠ []) → ∀ run,
      handleCommandSearch auth user queries = .ok run →
        ∀ q ∈ queries, ∀ t ∈ apiOpened served locals q, checkPerms auth user .read t false = .ok ()) ↔
    queries.headD [] = [] ∨ ∀ q ∈ queries, ∀ t ∈ apiOpened served locals q, t = queries.headD [] := by
  have hrun : ∀ auth : AuthUsers, auth.enabled = true → ((∃ run, handleCommandSearch auth user queries = .ok run) ↔
      checkPerms auth user .read (queries.headD []) false = .ok ()) := by
    intro auth hon
    rw [handleCommandSearch, apiCheckPerms, hon]
    cases checkPerms auth user .read (queries.headD []) false <;> simp [Except.map]
  constructor
  · intro h
    by_cases hnil : queries.headD [] = []
    · exact .inl hnil
    refine .inr fun q hq t ht => ?_
    by_contra hne
    -- these rules accept every other name, so the request, and refuse `t`
    obtain ⟨htn, hplain⟩ := apiOpened_plain ht
    obtain ⟨run, hr⟩ := (hrun (withRules [denyRule t hplain, allowAll]) rfl).mpr
      ((checkPerms_deny hplain user _ hnil).mpr (Ne.symm hne))
    refine (checkPerms_deny hplain user t htn).mp (h _ rfl (fun perms hp => ?_) run hr q hq t ht) rfl
    cases hp
    simpa [denyRule, allowAll] using htn
  · rintro h auth hon htargets run hr q hq t ht
    have hok := (hrun auth hon).mp ⟨run, hr⟩
    rcases h with hnil | hall
    · rw [hnil, checkPerms_ok, hasPerms_nil htargets] at hok
      cases hok
    · exact hall q hq t ht ▸ hok

/-- **The second query of a request is not checked**: with READ denied on `logs` and allowed on `*`, the request with
a query on `docs` and one on `logs` is run. -/
theorem denied_table_in_request : let auth := withRules [denyRule logs.text logs.plain, allowAll]
    handleCommandSearch auth [117] [docs.text, logs.text] = .ok [docs.text, logs.text] ∧
      logs.text ∈ apiOpened (fun _ => true) [] logs.text ∧
      checkPerms auth [117] .read logs.text false = .error (permissionDenied [117]) :=
  ⟨rfl, by decide, rfl⟩

end Auth
end Manticore

import Graft.Host.Install
import Graft.Proofs.Settings
import Mathlib.Data.Finset.Card
import Mathlib.Data.Finset.Dedup

/-!
# Installing plans

What an installation leaves in the settings and in the registry. Of two declarations under one key, and of two patches
for one method, the first one counts, and whatever was registered before counts more than the plan.

* `Plan.validate_eq_ok` says which plans are valid.
* `Settings.Gains` and `Registry.Gains` say what a plan adds to the settings and to the registry.
* `World.install_cases` lists the outcomes: the plan is not valid, one of its settings is registered with another type,
  or the plan is installed.
* `World.install_error` says what is left behind by an installation that fails, `World.install_ok` what one that
  succeeds has done, and what another one would do.
-/

namespace Graft

/-! ### Valid plans -/

namespace Plan

variable {plan : Plan} {e : PatchError}

private theorem redeclared?_eq_none {seen : List String} {specs : List SettingSpec} :
    redeclared? seen specs = none ↔ (specs.map SettingSpec.key).Nodup ∧ ∀ d ∈ specs, d.key ∉ seen := by
  induction specs generalizing seen with
  | nil => simp [redeclared?]
  | cons d specs ih =>
    by_cases hd : d.key ∈ seen
    · simp [redeclared?, hd]
    · have hfresh : (∀ d' ∈ specs, d'.key ∉ d.key :: seen) ↔
          d.key ∉ specs.map SettingSpec.key ∧ ∀ d' ∈ specs, d'.key ∉ seen := by
        simp only [List.mem_cons, not_or, List.mem_map, not_exists, not_and]
        grind
      simp only [redeclared?, if_neg hd, ih, hfresh, List.map_cons, List.nodup_cons, List.forall_mem_cons]
      tauto

private theorem patchFault?_eq_none {keys : List String} {patch : PlanPatch} :
    patchFault? keys patch = none ↔ patch.rules ≠ [] ∧ ∀ r ∈ patch.rules, r.setting ∈ keys := by
  by_cases hrules : patch.rules = []
  · simp [patchFault?, hrules]
  · simp [patchFault?, hrules, List.find?_eq_none]

/-- A plan is valid if its keys are different, and if each of its patches has rules and these read declared settings. -/
theorem validate_eq_ok : plan.validate = .ok () ↔ (plan.settings.map SettingSpec.key).Nodup ∧
    ∀ patch ∈ plan.patches, patch.rules ≠ [] ∧ ∀ r ∈ patch.rules, r.setting ∈ plan.settings.map SettingSpec.key := by
  have hkeys : redeclared? [] plan.settings = none ↔ (plan.settings.map SettingSpec.key).Nodup := by
    simp [redeclared?_eq_none]
  simp only [← patchFault?_eq_none, ← List.findSome?_eq_none_iff, ← hkeys, validate, fault?]
  cases redeclared? [] plan.settings with
  | some key => simp
  | none => cases plan.patches.findSome? (patchFault? (plan.settings.map SettingSpec.key)) <;> simp

/-- What is wrong with a plan that is not valid is said before any of its settings is looked up. -/
theorem validate_eq_error (h : plan.validate = .error e) : ∃ fault, e = .plan fault ∧ ∀ key, fault ≠ .missing key := by
  unfold validate at h
  split at h
  · rename_i fault hfault
    refine ⟨fault, (Except.error.inj h).symm, ?_⟩
    rintro key rfl
    unfold fault? at hfault
    split at hfault
    · cases hfault
    · obtain ⟨patch, -, hpatch⟩ := List.exists_of_findSome?_eq_some hfault
      unfold patchFault? at hpatch
      split at hpatch
      · cases hpatch
      · obtain ⟨r, -, hr⟩ := Option.map_eq_some_iff.1 hpatch
        cases hr
  · cases h

end Plan

/-! ### Settings -/

namespace SettingSpec

/-- The setting that a declaration stands for. -/
def setting (d : SettingSpec) : Setting := ⟨d.label, d.category, d.default, d.default⟩

/-- A setting of another type is registered under the declared key. -/
def Clashes (s : Settings) (d : SettingSpec) : Prop := ∃ x, s.get? d.key = some x ∧ d.default.type ≠ x.type

end SettingSpec

namespace Settings

variable {s s' s₁ : Settings} {d : SettingSpec} {specs before after : List SettingSpec} {x : Setting} {key : String}

/-- The settings `s'` are those of `s`, and the declared ones under keys that were free. -/
def Gains (s : Settings) (specs : List SettingSpec) (s' : Settings) : Prop :=
  ∀ key, s'.get? key = (s.get? key).or ((specs.find? fun d => d.key == key).map SettingSpec.setting)

theorem Gains.kept (h : s.Gains specs s') (hx : s.get? key = some x) : s'.get? key = some x := by
  rw [h key, hx, Option.some_or]

theorem Gains.of_not_declared (h : s.Gains specs s') (hkey : key ∉ specs.map SettingSpec.key) :
    s'.get? key = s.get? key := by
  have hnone : specs.find? (fun d => d.key == key) = none := by
    simp only [List.find?_eq_none, beq_iff_eq]
    exact fun d hd heq => hkey (heq ▸ List.mem_map_of_mem hd)
  rw [h key, hnone, Option.map_none, Option.or_none]

theorem Gains.declared (h : s.Gains specs s') (hd : d ∈ specs) : ∃ x, s'.get? d.key = some x := by
  have hfind : (specs.find? fun d' => d'.key == d.key).isSome = true := List.find?_isSome.2 ⟨d, hd, beq_self_eq_true _⟩
  obtain ⟨d', hd'⟩ := Option.isSome_iff_exists.1 hfind
  rw [h d.key, hd']
  cases s.get? d.key with
  | none => exact ⟨d'.setting, rfl⟩
  | some x => exact ⟨x, rfl⟩

/-- If the declared keys are different, each of them stands for one declaration. -/
private theorem find?_declaration (hnodup : (specs.map SettingSpec.key).Nodup) (hd : d ∈ specs) :
    specs.find? (fun d' => d'.key == d.key) = some d := by
  induction specs with
  | nil => cases hd
  | cons d' specs ih => grind

theorem Gains.new (h : s.Gains specs s') (hnodup : (specs.map SettingSpec.key).Nodup) (hd : d ∈ specs)
    (hnone : s.get? d.key = none) : s'.get? d.key = some d.setting := by
  rw [h d.key, hnone, find?_declaration hnodup hd]
  rfl

/-- Registering a declared setting fails, changes nothing, or adds the setting. -/
theorem register_cases (s : Settings) (d : SettingSpec) :
    (∃ x, s.get? d.key = some x ∧ d.default.type ≠ x.type ∧
      s.register d.key d.default d.label d.category = .error (.settingType d.key x.type d.default.type)) ∨
    (∃ x, s.get? d.key = some x ∧ d.default.type = x.type ∧
      s.register d.key d.default d.label d.category = .ok s) ∨
    (s.get? d.key = none ∧
      s.register d.key d.default d.label d.category = .ok ⟨s.byKey.insert d.key d.setting⟩) := by
  unfold register
  cases hx : s.get? d.key with
  | none => exact .inr (.inr ⟨rfl, rfl⟩)
  | some x =>
    by_cases htype : d.default.type = x.type
    · exact .inr (.inl ⟨x, rfl, htype, by simp [checkType, htype, Except.map]⟩)
    · exact .inl ⟨x, rfl, htype, by simp [checkType, htype, Except.map]⟩

private theorem gains_register (h : s.register d.key d.default d.label d.category = .ok s') :
    s.Gains [d] s' ∧ ∃ x, s'.get? d.key = some x ∧ d.default.type = x.type := by
  rcases register_cases s d with ⟨x, -, -, herror⟩ | ⟨x, hx, htype, hok⟩ | ⟨hnone, hok⟩
  · rw [herror] at h
    cases h
  · obtain rfl := Except.ok.inj (hok.symm.trans h)
    refine ⟨fun key => ?_, x, hx, htype⟩
    by_cases hkey : d.key = key
    · subst hkey
      rw [hx, Option.some_or]
    · simp [hkey]
  · obtain rfl := Except.ok.inj (hok.symm.trans h)
    refine ⟨fun key => ?_, d.setting, by rw [get?_insert, if_pos rfl], rfl⟩
    by_cases hkey : d.key = key
    · subst hkey
      simp [get?_insert, hnone]
    · simp [get?_insert, hkey, Ne.symm hkey]

theorem Gains.cons (hfirst : s.Gains [d] s₁) (hrest : s₁.Gains specs s') : s.Gains (d :: specs) s' := by
  intro key
  rw [hrest key, hfirst key]
  by_cases hkey : d.key = key
  · simp [hkey]
  · simp [hkey]

/-- Settings that can be registered are there afterwards, with the types that they are declared to have. -/
theorem gains_registerSettings (h : Plan.registerSettings s specs = (.ok (), s')) :
    s.Gains specs s' ∧ ∀ d ∈ specs, ∃ x, s'.get? d.key = some x ∧ d.default.type = x.type := by
  induction specs generalizing s with
  | nil =>
    obtain ⟨-, rfl⟩ := Prod.mk.inj h
    exact ⟨fun key => by simp, nofun⟩
  | cons d specs ih =>
    unfold Plan.registerSettings at h
    split at h
    · cases h
    · rename_i s₁ hregister
      obtain ⟨hfirst, x, hx, htype⟩ := gains_register hregister
      obtain ⟨hrest, htypes⟩ := ih h
      exact ⟨hfirst.cons hrest, List.forall_mem_cons.2 ⟨⟨x, hrest.kept hx, htype⟩, htypes⟩⟩

theorem not_clashes (h : Plan.registerSettings s specs = (.ok (), s')) : ∀ d ∈ specs, ¬ d.Clashes s := by
  rintro d hd ⟨x, hx, htype⟩
  obtain ⟨hgains, htypes⟩ := gains_registerSettings h
  obtain ⟨y, hy, htype'⟩ := htypes d hd
  obtain rfl := Option.some.inj ((hgains.kept hx).symm.trans hy)
  exact htype htype'

theorem changes_registerSettings (s : Settings) (specs : List SettingSpec) :
    s.Changes (Plan.registerSettings s specs).2 := by
  induction specs generalizing s with
  | nil => exact .refl
  | cons d specs ih =>
    unfold Plan.registerSettings
    split
    · exact .refl
    · rename_i hregister
      exact (changes_register hregister).trans (ih _)

/-- Settings that are there with their declared types are left alone. -/
theorem registerSettings_self (h : ∀ d ∈ specs, ∃ x, s.get? d.key = some x ∧ d.default.type = x.type) :
    Plan.registerSettings s specs = (.ok (), s) := by
  induction specs with
  | nil => rfl
  | cons d specs ih =>
    obtain ⟨⟨x, hx, htype⟩, hrest⟩ := List.forall_mem_cons.1 h
    rcases register_cases s d with ⟨y, hy, hne, -⟩ | ⟨-, -, -, hok⟩ | ⟨hnone, -⟩
    · obtain rfl := Option.some.inj (hx.symm.trans hy)
      exact absurd htype hne
    · rw [Plan.registerSettings, hok]
      exact ih hrest
    · cases hnone.symm.trans hx

/-- Registering settings stops at the first one of another type. -/
theorem registerSettings_cases (s : Settings) (specs : List SettingSpec) :
    (∃ s', Plan.registerSettings s specs = (.ok (), s')) ∨
    ∃ before d after s' x, specs = before ++ d :: after ∧ Plan.registerSettings s before = (.ok (), s') ∧
      s'.get? d.key = some x ∧ d.default.type ≠ x.type ∧
      Plan.registerSettings s specs = (.error (.settingType d.key x.type d.default.type), s') := by
  induction specs generalizing s with
  | nil => exact .inl ⟨s, rfl⟩
  | cons d specs ih =>
    -- a setting that is registered leaves the question to the others
    have hlater {s₁ : Settings} (hok : s.register d.key d.default d.label d.category = .ok s₁) :
        (∃ s', Plan.registerSettings s (d :: specs) = (.ok (), s')) ∨
        ∃ before d' after s' x, d :: specs = before ++ d' :: after ∧ Plan.registerSettings s before = (.ok (), s') ∧
          s'.get? d'.key = some x ∧ d'.default.type ≠ x.type ∧
          Plan.registerSettings s (d :: specs) = (.error (.settingType d'.key x.type d'.default.type), s') := by
      have hcons (specs' : List SettingSpec) :
          Plan.registerSettings s (d :: specs') = Plan.registerSettings s₁ specs' := by
        rw [Plan.registerSettings, hok]
      rcases ih s₁ with ⟨s', h⟩ | ⟨before, d', after, s', x, rfl, hbefore, hx, htype, h⟩
      · exact .inl ⟨s', (hcons _).trans h⟩
      · exact .inr ⟨d :: before, d', after, s', x, rfl, (hcons _).trans hbefore, hx, htype, (hcons _).trans h⟩
    rcases register_cases s d with ⟨x, hx, htype, herror⟩ | ⟨-, -, -, hok⟩ | ⟨-, hok⟩
    · exact .inr ⟨[], d, specs, s, x, rfl, rfl, hx, htype, by rw [Plan.registerSettings, herror]⟩
    · exact hlater hok
    · exact hlater hok

end Settings

/-- The rules of a valid plan read settings that are there once the declared ones are. -/
theorem Plan.exists_setting {plan : Plan} {s s' : Settings} (hvalid : plan.validate = .ok ())
    (hgains : s.Gains plan.settings s') :
    ∀ patch ∈ plan.patches, ∀ rule ∈ patch.rules, ∃ x, s'.get? rule.setting = some x := by
  intro patch hpatch rule hrule
  obtain ⟨-, hdeclared⟩ := (Plan.validate_eq_ok.1 hvalid).2 patch hpatch
  obtain ⟨d, hd, hkey⟩ := List.mem_map.1 (hdeclared rule hrule)
  exact hkey ▸ hgains.declared hd

/-! ### Patches -/

/-- The rule with the setting that is registered under its key. -/
def Rule.Bound (p : Providers) (r : Rule) (x : BoundRule) : Prop :=
  x.rule = r ∧ p.settingBinding? r.setting = some x.binding

/-- The registration that a patch of a plan becomes: its rules with the settings that they read, not tried yet. -/
structure PlanPatch.Becomes (p : Providers) (patch : PlanPatch) (g : Registration) : Prop where
  name : g.name = patch.name
  state : g.state = .pending
  rules : ∃ rs, g.patch = .rules rs ∧ List.Forall₂ (Rule.Bound p) patch.rules rs

theorem PlanPatch.Becomes.eq {p : Providers} {patch : PlanPatch} {g : Registration} (h : patch.Becomes p g) :
    ∃ rs, g = ⟨patch.name, .rules rs, .pending⟩ ∧ List.Forall₂ (Rule.Bound p) patch.rules rs := by
  obtain ⟨name, rules, state⟩ := g
  obtain ⟨hname, hstate, rs, hrs, hbound⟩ := h
  dsimp only at hname hstate hrs
  subst hname hstate hrs
  exact ⟨rs, rfl, hbound⟩

theorem Rule.map_rule_of_bound {p : Providers} {rules : List Rule} {rs : List BoundRule}
    (h : List.Forall₂ (Rule.Bound p) rules rs) : rs.map BoundRule.rule = rules := by
  induction h with
  | nil => rfl
  | cons hfirst _ ih => rw [List.map_cons, hfirst.1, ih]

theorem Plan.bindRules_eq_ok {p : Providers} {rules : List Rule} {rs : List BoundRule} :
    bindRules p rules = .ok rs ↔ List.Forall₂ (Rule.Bound p) rules rs := by
  rw [bindRules, mapM_eq_ok_iff]
  constructor
  · refine fun h => h.imp fun r x hx => ?_
    split at hx
    · rename_i y hy
      obtain rfl := Except.ok.inj hx
      exact ⟨rfl, hy⟩
    · cases hx
  · refine fun h => h.imp fun r x hx => ?_
    obtain ⟨rfl, hbinding⟩ := hx
    rw [hbinding]

/-- Rules that read registered settings can be bound to them. -/
theorem Plan.exists_bindRules {p : Providers} {rules : List Rule}
    (h : ∀ r ∈ rules, ∃ x, p.settings.get? r.setting = some x) : ∃ rs, bindRules p rules = .ok rs := by
  have hbound : ∀ r ∈ rules, ∃ x, Rule.Bound p r x := by
    intro r hr
    obtain ⟨x, hx⟩ := h r hr
    exact ⟨⟨r, ⟨r.setting, x.type, .setting r.setting⟩⟩, rfl, by simp [Providers.settingBinding?, hx]⟩
  obtain ⟨rs, hrs⟩ := exists_forall₂ hbound
  exact ⟨rs, bindRules_eq_ok.2 hrs⟩

namespace Registry

variable {r r' r₁ : Registry} {p : Providers} {patch : PlanPatch} {patches : List PlanPatch} {g : Registration}
  {report : InstallReport}

/-- A patch is refused if its method has one, and else it is added. -/
theorem register_cases (r : Registry) (target : MethodId) (name : String) (patch : Patch) :
    ((∃ g, r.get? target = some g) ∧ r.register target name patch = (false, r)) ∨
    (r.get? target = none ∧ ∃ r₁, r.register target name patch = (true, r₁) ∧
      ∀ id, r₁.get? id = if id = target then some ⟨name, patch, .pending⟩ else r.get? id) := by
  unfold register Dict.contains
  cases hold : r.get? target with
  | some g =>
    have hget : r.byTarget.get? target = some g := hold
    exact .inl ⟨⟨g, rfl⟩, by simp [hget]⟩
  | none =>
    have hget : r.byTarget.get? target = none := hold
    refine .inr ⟨rfl, ⟨r.byTarget.insert target ⟨name, patch, .pending⟩⟩, by simp [hget], fun id => ?_⟩
    by_cases hid : id = target
    · subst hid
      rw [if_pos rfl]
      exact Dict.get?_insert_self ..
    · rw [if_neg hid]
      exact Dict.get?_insert_of_ne _ hid _

/-- The methods of a list that have no patch. -/
def fresh (r : Registry) (ids : List MethodId) : Finset MethodId := (ids.filter fun id => (r.get? id).isNone).toFinset

theorem mem_fresh {ids : List MethodId} {id : MethodId} : id ∈ r.fresh ids ↔ id ∈ ids ∧ r.get? id = none := by
  simp [fresh]

/-- The registry `r'` holds what `r` does, and the first patches for methods that had none. -/
structure Gains (r : Registry) (p : Providers) (patches : List PlanPatch) (r' : Registry) : Prop where
  kept : ∀ {id g}, r.get? id = some g → r'.get? id = some g
  new : ∀ {id patch}, r.get? id = none → (patches.find? fun patch => patch.target == id) = some patch →
    ∃ g, r'.get? id = some g ∧ patch.Becomes p g
  other : ∀ {id}, r.get? id = none → id ∉ patches.map PlanPatch.target → r'.get? id = none

/-- A method keeps its patch, or gets the first one for it. -/
theorem Gains.get?_cases (h : r.Gains p patches r') (id : MethodId) :
    (r'.get? id = r.get? id ∧ (id ∈ patches.map PlanPatch.target → (r.get? id).isSome = true)) ∨
    (r.get? id = none ∧ ∃ patch g, (patches.find? fun patch => patch.target == id) = some patch ∧
      r'.get? id = some g ∧ patch.Becomes p g) := by
  cases hold : r.get? id with
  | some g => exact .inl ⟨h.kept hold, fun _ => rfl⟩
  | none =>
    by_cases hid : id ∈ patches.map PlanPatch.target
    · obtain ⟨patch, hpatch, rfl⟩ := List.mem_map.1 hid
      have hfind : (patches.find? fun patch' => patch'.target == patch.target).isSome = true :=
        List.find?_isSome.2 ⟨patch, hpatch, beq_self_eq_true _⟩
      obtain ⟨patch', hpatch'⟩ := Option.isSome_iff_exists.1 hfind
      obtain ⟨g, hg, hbecomes⟩ := h.new hold hpatch'
      exact .inr ⟨rfl, patch', g, hpatch', hg, hbecomes⟩
    · exact .inl ⟨h.other hold hid, fun hmem => absurd hmem hid⟩

/-- The methods that have a patch afterwards are those that had one and the targets of the plan. -/
theorem Gains.isSome_iff (h : r.Gains p patches r') (id : MethodId) :
    (r'.get? id).isSome = true ↔ (r.get? id).isSome = true ∨ id ∈ patches.map PlanPatch.target := by
  rcases h.get?_cases id with ⟨hsame, hold⟩ | ⟨hnone, patch, g, hfind, hg, -⟩
  · rw [hsame]
    exact ⟨.inl, fun hor => hor.elim (fun hsome => hsome) hold⟩
  · have htarget : patch.target = id := by simpa using List.find?_some hfind
    have hmem : id ∈ patches.map PlanPatch.target := htarget ▸ List.mem_map_of_mem (List.mem_of_find?_eq_some hfind)
    simp [hg, hmem]

theorem Gains.skip (hold : ∃ g, r.get? patch.target = some g) (hrest : r.Gains p patches r') :
    r.Gains p (patch :: patches) r' := by
  obtain ⟨g, hg⟩ := hold
  have hne {id : MethodId} (hid : r.get? id = none) : patch.target ≠ id := by
    rintro rfl
    cases hid.symm.trans hg
  constructor
  · exact hrest.kept
  · intro id patch' hid hfind
    exact hrest.new hid (by simpa [hne hid] using hfind)
  · intro id hid hmem
    simp only [List.map_cons, List.mem_cons, not_or] at hmem
    exact hrest.other hid hmem.2

theorem Gains.add (hnone : r.get? patch.target = none) (hg : patch.Becomes p g)
    (hfirst : ∀ id, r₁.get? id = if id = patch.target then some g else r.get? id) (hrest : r₁.Gains p patches r') :
    r.Gains p (patch :: patches) r' := by
  constructor
  · intro id g' hold
    have hid : id ≠ patch.target := by
      rintro rfl
      cases hnone.symm.trans hold
    exact hrest.kept (by rw [hfirst, if_neg hid, hold])
  · intro id patch' hold hfind
    by_cases hid : patch.target = id
    · subst hid
      obtain rfl : patch = patch' := by simpa using hfind
      exact ⟨g, hrest.kept (by rw [hfirst, if_pos rfl]), hg⟩
    · have hold₁ : r₁.get? id = none := by rw [hfirst, if_neg (Ne.symm hid), hold]
      exact hrest.new hold₁ (by simpa [hid] using hfind)
  · intro id hold hid
    simp only [List.map_cons, List.mem_cons, not_or] at hid
    exact hrest.other (by rw [hfirst, if_neg hid.1, hold]) hid.2

private theorem registerPatches_skip {rs : List BoundRule} (hrs : Plan.bindRules p patch.rules = .ok rs)
    (hskip : r.register patch.target patch.name (.rules rs) = (false, r)) :
    Plan.registerPatches p r report (patch :: patches) =
      Plan.registerPatches p r { report with skipped := report.skipped + 1 } patches := by
  rw [Plan.registerPatches, hrs]
  simp only [hskip]

private theorem registerPatches_add {rs : List BoundRule} (hrs : Plan.bindRules p patch.rules = .ok rs)
    (hadd : r.register patch.target patch.name (.rules rs) = (true, r₁)) :
    Plan.registerPatches p r report (patch :: patches) =
      Plan.registerPatches p r₁ { report with patches := report.patches + 1 } patches := by
  rw [Plan.registerPatches, hrs]
  simp only [hadd]

/-- Patches whose rules read registered settings are all taken into account: each of them is registered, or skipped since
its method has one. -/
theorem registerPatches_spec (r : Registry) (report : InstallReport)
    (h : ∀ patch ∈ patches, ∀ rule ∈ patch.rules, ∃ x, p.settings.get? rule.setting = some x) :
    ∃ report' r', Plan.registerPatches p r report patches = (.ok report', r') ∧ r.Gains p patches r' ∧
      report'.settings = report.settings ∧
      report'.patches = report.patches + (r.fresh (patches.map PlanPatch.target)).card ∧
      report'.patches + report'.skipped = report.patches + report.skipped + patches.length := by
  induction patches generalizing r report with
  | nil => exact ⟨report, r, rfl, ⟨fun hg => hg, nofun, fun hold _ => hold⟩, rfl, rfl, rfl⟩
  | cons patch patches ih =>
    obtain ⟨hfirst, hrest⟩ := List.forall_mem_cons.1 h
    obtain ⟨rs, hrs⟩ := Plan.exists_bindRules hfirst
    rw [List.map_cons, List.length_cons]
    rcases r.register_cases patch.target patch.name (.rules rs) with ⟨hold, hskip⟩ | ⟨hnone, r₁, hadd, hget⟩
    · obtain ⟨report', r', hok, hgains, hsettings, hpatches, hall⟩ :=
        ih r { report with skipped := report.skipped + 1 } hrest
      have hfresh : r.fresh (patch.target :: patches.map PlanPatch.target) = r.fresh (patches.map PlanPatch.target) := by
        obtain ⟨g, hg⟩ := hold
        simp [fresh, hg]
      rw [registerPatches_skip hrs hskip, hfresh]
      dsimp only at hall
      exact ⟨report', r', hok, hgains.skip hold, hsettings, hpatches, by omega⟩
    · obtain ⟨report', r', hok, hgains, hsettings, hpatches, hall⟩ :=
        ih r₁ { report with patches := report.patches + 1 } hrest
      -- the method of this patch is new, and it is so only once
      have hfresh : r.fresh (patch.target :: patches.map PlanPatch.target) =
          insert patch.target (r₁.fresh (patches.map PlanPatch.target)) := by
        ext id
        by_cases hid : id = patch.target
        · simp [mem_fresh, hid, hnone]
        · simp [mem_fresh, hget, hid]
      have hold₁ : patch.target ∉ r₁.fresh (patches.map PlanPatch.target) := by simp [mem_fresh, hget]
      have hbecomes : patch.Becomes p ⟨patch.name, .rules rs, .pending⟩ :=
        ⟨rfl, rfl, rs, rfl, Plan.bindRules_eq_ok.1 hrs⟩
      rw [registerPatches_add hrs hadd, hfresh, Finset.card_insert_of_notMem hold₁]
      dsimp only at hpatches hall
      exact ⟨report', r', hok, hgains.add hnone hbecomes hget, hsettings, by omega, by omega⟩

/-- Patches for methods that have one are skipped. -/
theorem registerPatches_self (report : InstallReport)
    (h : ∀ patch ∈ patches, ∀ rule ∈ patch.rules, ∃ x, p.settings.get? rule.setting = some x)
    (hold : ∀ patch ∈ patches, (r.get? patch.target).isSome = true) :
    Plan.registerPatches p r report patches = (.ok { report with skipped := report.skipped + patches.length }, r) := by
  induction patches generalizing report with
  | nil => rfl
  | cons patch patches ih =>
    obtain ⟨hfirst, hrest⟩ := List.forall_mem_cons.1 h
    obtain ⟨hfound, hold⟩ := List.forall_mem_cons.1 hold
    obtain ⟨rs, hrs⟩ := Plan.exists_bindRules hfirst
    rcases r.register_cases patch.target patch.name (.rules rs) with ⟨-, hskip⟩ | ⟨hnone, -⟩
    · rw [registerPatches_skip hrs hskip, ih _ hrest hold, List.length_cons]
      simp only [Nat.add_assoc, Nat.add_comm 1]
    · rw [hnone] at hfound
      cases hfound

end Registry

/-! ### Installations -/

namespace World

variable {w w' : World} {plan : Plan} {report : InstallReport}

/-- Of the outcomes of an installation, one has changed nothing, one has added some settings, and one has added all that
the plan declares. -/
theorem install_cases (w : World) (plan : Plan) :
    (∃ e, plan.validate = .error e ∧ w.install plan = (.error e, w)) ∨
    (plan.validate = .ok () ∧ ∃ before d after s x, plan.settings = before ++ d :: after ∧
      Plan.registerSettings w.providers.settings before = (.ok (), s) ∧
      w.providers.settings.get? d.key = some x ∧ d.default.type ≠ x.type ∧
      w.install plan = (.error (.settingType d.key x.type d.default.type),
        { w with providers := { w.providers with settings := s } })) ∨
    (plan.validate = .ok () ∧ ∃ s r report, Plan.registerSettings w.providers.settings plan.settings = (.ok (), s) ∧
      w.registry.Gains { w.providers with settings := s } plan.patches r ∧
      report.settings = plan.settings.length ∧ report.patches = (w.registry.fresh plan.targets).card ∧
      report.patches + report.skipped = plan.patches.length ∧
      w.install plan = (.ok report, { w with providers := { w.providers with settings := s }, registry := r })) := by
  unfold install
  cases hvalid : plan.validate with
  | error e => exact .inl ⟨e, rfl, rfl⟩
  | ok =>
    rcases Settings.registerSettings_cases w.providers.settings plan.settings with
      ⟨s, hsettings⟩ | ⟨before, d, after, s, x, hsplit, hbefore, hx, htype, hsettings⟩
    · have hregistered := Plan.exists_setting hvalid (Settings.gains_registerSettings hsettings).1
      obtain ⟨report, r, hok, hadded, hcount, hnew, hall⟩ :=
        Registry.registerPatches_spec (p := { w.providers with settings := s }) w.registry
          { settings := plan.settings.length } hregistered
      have hnew' : report.patches = (w.registry.fresh plan.targets).card := by simpa [Plan.targets] using hnew
      have hall' : report.patches + report.skipped = plan.patches.length := by simpa using hall
      refine .inr (.inr ⟨rfl, s, r, report, hsettings, hadded, hcount, hnew', hall', ?_⟩)
      simp only [hsettings, hok]
    · -- the keys are different, so that the setting was registered before
      obtain ⟨hgains, -⟩ := Settings.gains_registerSettings hbefore
      have hnodup := (Plan.validate_eq_ok.1 hvalid).1
      have hfresh : d.key ∉ before.map SettingSpec.key := by
        rw [hsplit, List.map_append, List.map_cons] at hnodup
        intro hmem
        exact (List.nodup_append.1 hnodup).2.2 _ hmem _ List.mem_cons_self rfl
      rw [hgains.of_not_declared hfresh] at hx
      refine .inr (.inl ⟨rfl, before, d, after, s, x, hsplit, hbefore, hx, htype, ?_⟩)
      simp only [hsettings]

/-- Installing a plan changes settings, also if it fails. -/
theorem changes_install (w : World) (plan : Plan) :
    w.providers.settings.Changes (w.install plan).2.providers.settings := by
  have hchanges := w.providers.settings.changes_registerSettings
  rcases w.install_cases plan with ⟨e, -, hinstall⟩ | ⟨-, before, d, after, s, x, -, hbefore, -, -, hinstall⟩ |
    ⟨-, s, r, report, hsettings, -, -, -, -, hinstall⟩
  · rw [hinstall]
  · rw [hinstall]
    simpa only [hbefore] using hchanges before
  · rw [hinstall]
    simpa only [hsettings] using hchanges plan.settings

/-- The patch of a method was registered before, or it is one of the plan. -/
theorem get?_install (w : World) (plan : Plan) (id : MethodId) :
    (w.install plan).2.registry.get? id = w.registry.get? id ∨
      ∃ patch ∈ plan.patches, patch.target = id ∧ ∃ g, (w.install plan).2.registry.get? id = some g ∧
        patch.Becomes (w.install plan).2.providers g := by
  rcases w.install_cases plan with ⟨e, -, hinstall⟩ | ⟨-, before, d, after, s, x, -, -, -, -, hinstall⟩ |
    ⟨-, s, r, report, -, hpatches, -, -, -, hinstall⟩
  · exact .inl (by rw [hinstall])
  · exact .inl (by rw [hinstall])
  · rw [hinstall]
    rcases hpatches.get?_cases id with ⟨hsame, -⟩ | ⟨-, patch, g, hfind, hg, hbecomes⟩
    · exact .inl hsame
    · exact .inr ⟨patch, List.mem_of_find?_eq_some hfind, by simpa using List.find?_some hfind, g, hg, hbecomes⟩

/-- A plan that is installed is valid, and each of its targets has a patch. -/
theorem of_install (h : w.install plan = (.ok report, w')) :
    plan.validate = .ok () ∧ ∀ id ∈ plan.targets, (w'.registry.get? id).isSome = true := by
  rcases w.install_cases plan with ⟨e, -, hinstall⟩ | ⟨-, before, d, after, s, x, -, -, -, -, hinstall⟩ |
    ⟨hvalid, s, r, report', -, hpatches, -, -, -, hinstall⟩
  · cases hinstall.symm.trans h
  · cases hinstall.symm.trans h
  · obtain ⟨-, rfl⟩ := Prod.mk.inj (hinstall.symm.trans h)
    exact ⟨hvalid, fun id hid => (hpatches.isSome_iff id).2 (.inr hid)⟩

/-- An installation fails exactly if the plan is not valid or declares a setting that is registered with another type. It
changes no method and no patch then, and nothing at all if the plan is not valid. A setting of another type is found late,
however: what the plan declares in front of it stays registered, so that everything is as it was exactly if all of that had
been registered before. Rules that read an unregistered setting are never what an installation fails for. -/
theorem install_error (w : World) (plan : Plan) :
    ((∃ e w', w.install plan = (.error e, w')) ↔
      plan.validate ≠ .ok () ∨ ∃ d ∈ plan.settings, d.Clashes w.providers.settings) ∧
    ∀ e w', w.install plan = (.error e, w') →
      w'.table = w.table ∧ w'.registry = w.registry ∧ w'.providers.feeds = w.providers.feeds ∧
      (∀ key, e ≠ .plan (.missing key)) ∧
      ((plan.validate = .error e ∧ w' = w) ∨
        (plan.validate = .ok () ∧ ∃ before d after x, plan.settings = before ++ d :: after ∧
          (∀ d' ∈ before, ¬ d'.Clashes w.providers.settings) ∧
          w.providers.settings.get? d.key = some x ∧ d.default.type ≠ x.type ∧
          e = .settingType d.key x.type d.default.type ∧
          w.providers.settings.Gains before w'.providers.settings ∧
          (w' = w ↔ ∀ d' ∈ before, ∃ y, w.providers.settings.get? d'.key = some y))) := by
  rcases w.install_cases plan with ⟨e, hvalid, hinstall⟩ |
    ⟨hvalid, before, d, after, s, x, hsplit, hbefore, hx, htype, hinstall⟩ |
    ⟨hvalid, s, r, report, hsettings, -, -, -, -, hinstall⟩
  · refine ⟨⟨fun _ => .inl (by simp [hvalid]), fun _ => ⟨e, w, hinstall⟩⟩, fun e' w' h => ?_⟩
    obtain ⟨herror, rfl⟩ := Prod.mk.inj (hinstall.symm.trans h)
    obtain rfl := Except.error.inj herror
    obtain ⟨fault, rfl, hfault⟩ := Plan.validate_eq_error hvalid
    refine ⟨rfl, rfl, rfl, fun key hkey => ?_, .inl ⟨hvalid, rfl⟩⟩
    exact hfault key (PatchError.plan.inj hkey)
  · have hclash : d.Clashes w.providers.settings := ⟨x, hx, htype⟩
    have hmem : d ∈ plan.settings := by simp [hsplit]
    refine ⟨⟨fun _ => .inr ⟨d, hmem, hclash⟩, fun _ => ⟨_, _, hinstall⟩⟩, fun e' w' h => ?_⟩
    obtain ⟨herror, rfl⟩ := Prod.mk.inj (hinstall.symm.trans h)
    obtain rfl := Except.error.inj herror
    obtain ⟨hgains, htypes⟩ := Settings.gains_registerSettings hbefore
    refine ⟨rfl, rfl, rfl, nofun, .inr ⟨hvalid, before, d, after, x, hsplit, ?_, hx, htype, rfl, hgains, ?_, ?_⟩⟩
    · exact Settings.not_clashes hbefore
    · intro hsame d' hd'
      obtain ⟨y, hy⟩ := hgains.declared hd'
      have hs : s = w.providers.settings := congrArg (fun w => w.providers.settings) hsame
      exact ⟨y, hs ▸ hy⟩
    · intro hall
      have hself : Plan.registerSettings w.providers.settings before = (.ok (), w.providers.settings) := by
        refine Settings.registerSettings_self fun d' hd' => ?_
        obtain ⟨y, hy⟩ := hall d' hd'
        obtain ⟨z, hz, htype⟩ := htypes d' hd'
        obtain rfl := Option.some.inj ((hgains.kept hy).symm.trans hz)
        exact ⟨y, hy, htype⟩
      obtain rfl : w.providers.settings = s := (Prod.mk.inj (hself.symm.trans hbefore)).2
      rfl
  · constructor
    · constructor
      · rintro ⟨e, w', herror⟩
        cases hinstall.symm.trans herror
      · rintro (hinvalid | ⟨d, hd, hclash⟩)
        · exact absurd hvalid hinvalid
        · exact absurd hclash (Settings.not_clashes hsettings d hd)
    · intro e w' herror
      cases hinstall.symm.trans herror

/-- A world with one setting, and a plan that declares another one in front of it and it with another type. -/
def armed : World := { providers := { settings := ⟨⟨[("hard", ⟨"Hard mode", "Difficulty", .bool false, .bool true⟩)]⟩⟩ } }

def clashing : Plan where
  settings := [⟨"bonus", .i32 5, "Bonus", "Difficulty"⟩, ⟨"hard", .i32 1, "Hard mode", "Difficulty"⟩]
  patches := [⟨⟨"Game", "rate"⟩, "rate", [⟨.ldcI4 5, 1, "bonus"⟩]⟩]

/-- The first setting stays registered although the installation fails. -/
theorem install_error_clashing : ∃ w', armed.install clashing = (.error (.settingType "hard" .bool .i32), w') ∧
    w'.registry = armed.registry ∧ w' ≠ armed ∧
    w'.providers.settings.get? "bonus" = some ⟨"Bonus", "Difficulty", .i32 5, .i32 5⟩ := by
  obtain ⟨w', h⟩ : ∃ w', armed.install clashing = (.error (.settingType "hard" .bool .i32), w') := ⟨_, rfl⟩
  obtain ⟨-, hregistry, -, -, ⟨hinvalid, -⟩ | ⟨-, before, d, after, x, hsplit, -, hx, -, herror, hgains, hsame⟩⟩ :=
    (install_error armed clashing).2 _ _ h
  · cases hinvalid
  · have hbonus : armed.providers.settings.get? "bonus" = none := rfl
    have hnew : w'.providers.settings.get? "bonus" = some ⟨"Bonus", "Difficulty", .i32 5, .i32 5⟩ := by
      cases before with
      | nil =>
        obtain ⟨rfl, -⟩ := List.cons.inj hsplit
        cases hx
      | cons d' before =>
        obtain ⟨rfl, -⟩ := List.cons.inj hsplit
        rw [hgains "bonus", hbonus]
        rfl
    refine ⟨w', h, hregistry, ?_, hnew⟩
    rintro rfl
    cases hbonus.symm.trans hnew

/-- An installation that fails does not always leave everything as it was. -/
theorem not_install_unchanged : ¬ ∀ (w : World) (plan : Plan) (e : PatchError) (w' : World),
    w.install plan = (.error e, w') →
      w'.providers.settings = w.providers.settings ∧ w'.registry = w.registry := by
  intro h
  have hsettings := (h armed clashing _ _ rfl).1
  revert hsettings
  decide

/-- An installation that succeeds has registered each declared setting and given a patch to each target. What was there
before stays as it was. A target that had no patch gets the first one that the plan has for it, with the settings that are
registered under the keys of its rules. The report counts all settings, the patches that were registered and those that
were not. Installing the plan once more registers nothing and changes nothing. -/
theorem install_ok (h : w.install plan = (.ok report, w')) :
    (report.settings = plan.settings.length ∧ report.patches + report.skipped = plan.patches.length ∧
      report.patches = (w.registry.fresh plan.targets).card) ∧
    (∀ id, (w'.registry.get? id).isSome = true ↔ (w.registry.get? id).isSome = true ∨ id ∈ plan.targets) ∧
    (∀ id g, w.registry.get? id = some g → w'.registry.get? id = some g) ∧
    (∀ id g, w.registry.get? id = none → w'.registry.get? id = some g →
      ∃ patch, (plan.patches.find? fun patch => patch.target == id) = some patch ∧ patch.Becomes w'.providers g) ∧
    (∀ key x, w.providers.settings.get? key = some x → w'.providers.settings.get? key = some x) ∧
    (∀ d ∈ plan.settings, w.providers.settings.get? d.key = none →
      w'.providers.settings.get? d.key = some d.setting) ∧
    (∀ key, key ∉ plan.settings.map SettingSpec.key →
      w'.providers.settings.get? key = w.providers.settings.get? key) ∧
    (w'.table = w.table ∧ w'.providers.feeds = w.providers.feeds) ∧
    w'.install plan = (.ok ⟨plan.settings.length, 0, plan.patches.length⟩, w') := by
  rcases w.install_cases plan with ⟨e, -, hinstall⟩ | ⟨-, before, d, after, s, x, -, -, -, -, hinstall⟩ |
    ⟨hvalid, s, r, report', hsettings, hpatches, hcount, hnew, hall, hinstall⟩
  · cases hinstall.symm.trans h
  · cases hinstall.symm.trans h
  · obtain ⟨hreport, rfl⟩ := Prod.mk.inj (hinstall.symm.trans h)
    obtain rfl := Except.ok.inj hreport
    have hnodup := (Plan.validate_eq_ok.1 hvalid).1
    obtain ⟨hgains, htypes⟩ := Settings.gains_registerSettings hsettings
    refine ⟨⟨hcount, hall, hnew⟩, hpatches.isSome_iff, fun _ _ hg => hpatches.kept hg, ?_, fun _ _ hx => hgains.kept hx,
      fun d hd hnone => hgains.new hnodup hd hnone, fun key hkey => hgains.of_not_declared hkey, ⟨rfl, rfl⟩, ?_⟩
    · intro id g hold hg
      rcases hpatches.get?_cases id with ⟨hsame, -⟩ | ⟨-, patch, g', hfind, hg', hbecomes⟩
      · cases hold.symm.trans (hsame.symm.trans hg)
      · obtain rfl := Option.some.inj (hg'.symm.trans hg)
        exact ⟨patch, hfind, hbecomes⟩
    · -- all that the plan declares is there by now
      have hregistered := Plan.exists_setting hvalid hgains
      have htargets : ∀ patch ∈ plan.patches, (r.get? patch.target).isSome = true := by
        intro patch hpatch
        exact (hpatches.isSome_iff patch.target).2 (.inr (List.mem_map_of_mem hpatch))
      have hagain := Registry.registerPatches_self (p := { w.providers with settings := s })
        { settings := plan.settings.length } hregistered htargets
      simp only [install, hvalid, Settings.registerSettings_self htypes, hagain, Nat.zero_add]

/-- A world with a patch that has failed and a setting that has been changed. -/
def worn : World where
  registry := ⟨⟨[(⟨"Game", "cap"⟩, ⟨"earlier", .rules [], .failed (.plan (.missing "cap"))⟩)]⟩⟩
  providers := { settings := ⟨⟨[("rate", ⟨"Old rate", "Old", .i32 5, .i32 9⟩)]⟩⟩ }

/-- A plan for the method of that patch and, twice, for another one; it declares the setting differently. -/
def overlapping : Plan where
  settings := [⟨"rate", .i32 7, "Rate", "Game"⟩, ⟨"hard", .bool true, "Hard mode", "Game"⟩]
  patches := [⟨⟨"Game", "rate"⟩, "first", [⟨.ldcI4 5, 1, "rate"⟩]⟩, ⟨⟨"Game", "rate"⟩, "second", [⟨.any, 1, "hard"⟩]⟩,
    ⟨⟨"Game", "cap"⟩, "later", [⟨.any, 1, "rate"⟩]⟩]

/-- The patch that has failed and the setting that was changed stay, and the first one of two patches counts. -/
theorem install_ok_overlapping : ∃ w', worn.install overlapping = (.ok ⟨2, 1, 2⟩, w') ∧
    w'.registry.get? ⟨"Game", "cap"⟩ = some ⟨"earlier", .rules [], .failed (.plan (.missing "cap"))⟩ ∧
    (∃ g, w'.registry.get? ⟨"Game", "rate"⟩ = some g ∧ g.name = "first") ∧
    w'.providers.settings.get? "rate" = some ⟨"Old rate", "Old", .i32 5, .i32 9⟩ ∧
    w'.providers.settings.get? "hard" = some ⟨"Hard mode", "Game", .bool true, .bool true⟩ ∧
    w'.install overlapping = (.ok ⟨2, 0, 3⟩, w') := by
  obtain ⟨w', h⟩ : ∃ w', worn.install overlapping = (.ok ⟨2, 1, 2⟩, w') := ⟨_, rfl⟩
  obtain ⟨-, htargets, hpatches, hfirst, hsettings, hnew, -, -, hagain⟩ := install_ok h
  refine ⟨w', h, hpatches _ _ rfl, ?_, hsettings _ _ rfl, ?_, hagain⟩
  · have hrate : (w'.registry.get? ⟨"Game", "rate"⟩).isSome = true := (htargets _).2 (.inr (by decide))
    obtain ⟨g, hg⟩ := Option.isSome_iff_exists.1 hrate
    obtain ⟨patch, hpatch, hbecomes⟩ := hfirst _ g rfl hg
    obtain rfl := Option.some.inj hpatch
    exact ⟨g, hg, hbecomes.name⟩
  · exact hnew ⟨"hard", .bool true, "Hard mode", "Game"⟩ (by decide) rfl

end World

end Graft

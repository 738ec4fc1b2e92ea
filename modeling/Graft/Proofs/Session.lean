import Graft.Command.Selection
import Graft.Proofs.Assembly.Tokens
import Graft.Proofs.Execution.Soundness
import Graft.Proofs.Host.Plans
import Graft.Proofs.Settings
import Graft.Proofs.Value
import Graft.Session

/-!
# Methods of a session run safely

Whatever plan and snapshot a session starts with, and whatever module is loaded, no method of the module goes wrong when
it runs on arguments that were read for its signature (`Session.invoke_adjusted`).

* `Binding.Declared` says that a body takes a value from a setting of the right type.
* `World.Wired` says that the live bodies, and the rules that are still to be applied to them, take all external values
  from such settings. Attempts to apply patches keep this (`wired_applyTo`).
* `Host.Wired` adds what is needed of a host for its methods to run safely.
-/

namespace Graft

/-! ### Settings as external values -/

/-- The external value is that of a setting, and has the type of the setting. -/
def Binding.Declared (s : Settings) (x : Binding) : Prop :=
  ∃ key y, x.source = .setting key ∧ s.get? key = some y ∧ y.type = x.type

theorem Binding.Declared.keeps {s s' : Settings} {x : Binding} (h : x.Declared s) (hs : s.Keeps s') :
    x.Declared s' := by
  obtain ⟨key, y, hsource, hy, htype⟩ := h
  obtain ⟨y', hy', htype'⟩ := hs.type hy
  exact ⟨key, y', hsource, hy', htype'.trans htype⟩

theorem Binding.Declared.supplied {p : Providers} {x : Binding} (h : x.Declared p.settings) (hp : p.settings.Typed) :
    Execution.Supplied x p := by
  obtain ⟨key, y, hsource, hy, htype⟩ := h
  rw [Execution.Supplied, hsource]
  exact ⟨y, hy, (hp key y hy).trans htype⟩

/-! ### Worlds -/

namespace World

variable {w w' : World} {target : MethodId} {g : Registration}

/-- All patches are rules that read settings, and all live bodies take their external values from settings. -/
structure Wired (w : World) : Prop where
  patches : ∀ {id g}, w.registry.get? id = some g →
    ∃ rs, g.patch = .rules rs ∧ ∀ x ∈ rs.map BoundRule.binding, x.Declared w.providers.settings
  bodies : ∀ {id b}, w.table.get? id = some (.managed b) → ∀ x ∈ b.externals, x.Declared w.providers.settings

theorem Wired.put (hw : w.Wired) {b : Body} (hb : ∀ x ∈ b.externals, x.Declared w.providers.settings) :
    { w with table := w.table.put b }.Wired := by
  refine ⟨hw.patches, fun {id b'} hb' => ?_⟩
  rcases MethodTable.get?_put_cases hb' with ⟨-, rfl⟩ | ⟨-, hold⟩
  · exact hb
  · exact hw.bodies hold

theorem Wired.setState (hw : w.Wired) (hg : w.registry.get? target = some g) (state : PatchState) :
    { w with registry := w.registry.setState target g state }.Wired := by
  refine ⟨fun {id g'} hg' => ?_, hw.bodies⟩
  by_cases hid : id = target
  · subst hid
    obtain rfl := Option.some.inj ((Dict.get?_insert_self ..).symm.trans hg')
    obtain ⟨rs, hrs, hdeclared⟩ := hw.patches hg
    exact ⟨rs, hrs, hdeclared⟩
  · exact hw.patches ((Dict.get?_insert_of_ne _ hid _).symm.trans hg')

/-- Rules ask no source for anything. -/
private theorem providers_runPatch_rules (w : World) (target : MethodId) (rs : List BoundRule) :
    (w.runPatch target (.rules rs)).2.providers = w.providers := by
  unfold runPatch
  split
  · rfl
  · unfold Patch.edit
    dsimp only
    split
    · rename_i hedit
      exact (Prod.mk.inj hedit).2.symm
    · rename_i hedit
      split
      all_goals exact (Prod.mk.inj hedit).2.symm

private theorem wired_runPatch (hw : w.Wired) (hc : w.table.Checked)
    (hg : w.registry.get? target = some g) : (w.runPatch target g.patch).2.Wired := by
  obtain ⟨rs, hrs, hdeclared⟩ := hw.patches hg
  have hproviders := providers_runPatch_rules w target rs
  rw [hrs]
  rcases runPatch_cases w target (.rules rs) with ⟨e, p, hrun⟩ | ⟨live, b, p, t, hload, hedit, hcommit, hrun⟩
  · rw [hrun] at hproviders ⊢
    obtain rfl : p = w.providers := hproviders
    exact hw
  · rw [hrun] at hproviders ⊢
    obtain rfl : p = w.providers := hproviders
    obtain ⟨-, -, -, -, rfl⟩ := MethodTable.commit_eq_ok.1 hcommit
    have hlive := MethodTable.body_eq_ok.1 hload
    have hrules : BoundRule.applyAll rs live = .ok b := (Prod.mk.inj hedit).1
    refine hw.put fun x hx => ?_
    rcases BoundRule.applyAll_spec (hc.numbered hlive) (hc.wellTyped hload) rs with
      ⟨b', hb', -, -, hexternals⟩ | ⟨e, herror, -⟩
    · obtain rfl := Except.ok.inj (hrules.symm.trans hb')
      rcases hexternals x hx with hold | hnew
      · exact hw.bodies hlive x hold
      · exact hdeclared x hnew
    · cases hrules.symm.trans herror

/-- Attempts keep the bodies wired to settings. -/
theorem wired_applyTo (hw : w.Wired) (hc : w.table.Checked) (target : MethodId) :
    (w.applyTo target).2.Wired ∧ (w.applyTo target).2.providers = w.providers := by
  have hrun {g : Registration} {result : Except PatchError String} {w' : World}
      (hg : w.registry.get? target = some g) (h : w.runPatch target g.patch = (result, w')) (state : PatchState) :
      { w' with registry := w'.registry.setState target g state }.Wired ∧ w'.providers = w.providers := by
    have hwired := wired_runPatch hw hc hg
    have hregistry := registry_runPatch w target g.patch
    obtain ⟨rs, hrs, -⟩ := hw.patches hg
    have hproviders := providers_runPatch_rules w target rs
    rw [← hrs, h] at hproviders
    rw [h] at hwired hregistry
    exact ⟨hwired.setState (hregistry ▸ hg) state, hproviders⟩
  rcases applyTo_cases w target with
    ⟨-, happly⟩ | ⟨g, digest, -, -, happly⟩ | ⟨g, hg, -, ⟨digest, w', hok, happly⟩ | ⟨e, w', herror, happly⟩⟩
  · rw [happly]
    exact ⟨hw, rfl⟩
  · rw [happly]
    exact ⟨hw, rfl⟩
  · rw [happly]
    exact hrun hg hok _
  · rw [happly]
    exact hrun hg herror _

end World

/-! ### Plans -/

private theorem declared_of_bound {p : Providers} {rules : List Rule} {rs : List BoundRule}
    (h : List.Forall₂ (Rule.Bound p) rules rs) : ∀ x ∈ rs.map BoundRule.binding, x.Declared p.settings := by
  intro x hx
  obtain ⟨r, hr, rfl⟩ := List.mem_map.1 hx
  obtain ⟨rule, -, -, hbinding⟩ := exists_of_mem_right h hr
  obtain ⟨y, hy, hr⟩ := Option.map_eq_some_iff.1 hbinding
  rw [← hr]
  exact ⟨rule.setting, y, rfl, hy, rfl⟩

/-! ### Hosts -/

namespace Host

variable {h h' : Host} {b : Body} {bs : List Body} {id : MethodId}

/-- The bodies of a host are checked, their external values are those of settings, and the values of these are of the
right types. -/
structure Wired (h : Host) : Prop where
  reached : h.Reached
  typed : h.world.providers.settings.Typed
  wired : h.world.Wired

def Managed (h : Host) (id : MethodId) : Prop := ∃ b, h.world.table.get? id = some (.managed b)

theorem Managed.put (hm : h.Managed id) (b : Body) : (h.withTable (h.world.table.put b)).Managed id := by
  obtain ⟨b', hb'⟩ := hm
  by_cases hid : id = b.method
  · subst hid
    exact ⟨_, MethodTable.get?_put_self ..⟩
  · exact ⟨b', (MethodTable.get?_put_of_ne _ hid).trans hb'⟩

theorem Managed.tell (hm : h.Managed id) (target : MethodId) (hook : Hook) : (h.tell target hook).Managed id := by
  cases hook with
  | registry =>
    unfold Managed Host.tell
    rcases World.table_applyTo h.world target with hsame | ⟨live, b, -, -, hcommit⟩
    · dsimp only
      rwa [hsame]
    · obtain ⟨-, -, -, -, hput⟩ := MethodTable.commit_eq_ok.1 hcommit
      dsimp only
      rw [hput]
      exact hm.put b
  | recorder tag => exact hm

theorem Wired.tell (hw : h.Wired) (target : MethodId) (hook : Hook) : (h.tell target hook).Wired := by
  cases hook with
  | registry =>
    obtain ⟨hwired, hproviders⟩ := World.wired_applyTo hw.wired hw.reached.checked target
    refine ⟨hw.reached.tell target .registry, ?_, hwired⟩
    show (h.world.applyTo target).2.providers.settings.Typed
    rw [hproviders]
    exact hw.typed
  | recorder tag => exact ⟨hw.reached.tell target (.recorder tag), hw.typed, hw.wired⟩

theorem Wired.notify (hw : h.Wired) (target : MethodId) :
    (h.notify target).Wired ∧ ∀ id, h.Managed id → (h.notify target).Managed id := by
  unfold Host.notify
  generalize h.hooks = hooks
  induction hooks generalizing h with
  | nil => exact ⟨hw, fun id hm => hm⟩
  | cons hook hooks ih =>
    obtain ⟨hlast, hmanaged⟩ := ih (hw.tell target hook)
    exact ⟨hlast, fun id hm => hmanaged id (hm.tell target hook)⟩

/-- A body without external values can be defined. -/
theorem Wired.define (hw : h.Wired) (hb : b.Numbered) (hexternals : b.externals = #[]) (hd : h.define b = .ok h') :
    h'.Wired ∧ h'.Managed b.method ∧ ∀ id, h.Managed id → h'.Managed id := by
  obtain ⟨t, hstore, rfl⟩ := map_eq_ok.1 hd
  have hreached := hw.reached.store hb hstore
  obtain ⟨-, rfl⟩ := MethodTable.store_eq_ok.1 hstore
  have hput : (h.withTable (h.world.table.put b)).Wired := by
    refine ⟨hreached, hw.typed, hw.wired.put fun x hx => ?_⟩
    rw [hexternals] at hx
    cases Array.not_mem_empty x hx
  obtain ⟨hlast, hmanaged⟩ := hput.notify b.method
  exact ⟨hlast, hmanaged _ ⟨_, MethodTable.get?_put_self ..⟩, fun id hm => hmanaged id (hm.put b)⟩

theorem Wired.withSettings (hw : h.Wired) {s : Settings} (hs : h.world.providers.settings.Keeps s) :
    (h.withSettings s).Wired := by
  refine ⟨hw.reached.provide _, hs.typed hw.typed, ⟨fun hg => ?_, fun hb x hx => (hw.wired.bodies hb x hx).keeps hs⟩⟩
  obtain ⟨rs, hrs, hdeclared⟩ := hw.wired.patches hg
  exact ⟨rs, hrs, fun x hx => (hdeclared x hx).keeps hs⟩

/-- The right arguments for a method with a body lead to what a run of a checked body may come to. -/
theorem Wired.invoke (hw : h.Wired) (hm : h.Managed id) : ∃ sig, h.world.table.signature id = .ok sig ∧
    ∀ args, args.map Value.type = sig.params →
      (∃ v, (h.invoke id args).1 = .ok v ∧ v.map Value.type = sig.returns) ∨
      (∃ pos, (h.invoke id args).1 = .error (.divisionByZero pos)) ∨
      (h.invoke id args).1 = .error (.stepLimit Execution.defaultLimit) := by
  obtain ⟨b, hb⟩ := hm
  refine ⟨b.signature, ?_, fun args hargs => ?_⟩
  · rw [MethodTable.signature, hb]
  · have hclean := Typing.violations_eq_nil.2 (hw.reached.checked.clean hb)
    have hsupplied : ∀ x ∈ b.externals, Execution.Supplied x h.world.providers :=
      fun x hx => (hw.wired.bodies hb x hx).supplied hw.typed
    have hrun : (h.invoke id args).1 = (b.run Providers.read args Execution.defaultLimit h.world.providers).1 := by
      show (h.world.table.invoke Providers.read id args h.world.providers).1 = _
      rw [MethodTable.invoke, hb]
    rw [hrun]
    exact Execution.run_of_violations_eq_nil _ hclean hargs (Execution.faithful_read b) hsupplied

end Host

/-! ### Arguments -/

theorem types_of_readArguments {params : List ValueType} {tokens : List String} {values : List Value}
    (h : readArguments params tokens = .ok values) : values.map Value.type = params := by
  unfold readArguments at h
  split at h
  · rename_i hlength
    have hdenoted := Value.denoted_of_readValues h
    have htypes : List.Forall₂ (· = ·) ((params.zip tokens).map Prod.fst) (values.map Value.type) := by
      rw [List.forall₂_map_left_iff, List.forall₂_map_right_iff]
      exact hdenoted.imp fun _ _ hv => (Value.type_of_ofText? hv).symm
    rw [List.forall₂_eq_eq_eq] at htypes
    rw [← htypes, List.map_fst_zip (Nat.le_of_eq hlength.symm)]
  · cases h

/-! ### Sessions -/

namespace Session

variable {h h' : Host} {plan : Option Plan} {snap : Option Snapshot}

inductive Adjustment where
  | set (key : String) (v : Value)
  | reset (key : String)

/-- The settings after a change; one that fails leaves them as they are. -/
def adjust (s : Settings) : Adjustment → Settings
  | .set key v => ((s.set key v).map Prod.snd).toOption.getD s
  | .reset key => ((s.reset key).map Prod.snd).toOption.getD s

def adjusted (h : Host) (as : List Adjustment) : Host := h.withSettings (as.foldl adjust h.world.providers.settings)

theorem keeps_adjust (s : Settings) (a : Adjustment) : s.Keeps (adjust s a) := by
  cases a with
  | set key v =>
    rcases hset : s.set key v with e | ⟨w, s'⟩
    · simp only [adjust, hset]
      exact .refl s
    · simp only [adjust, hset]
      exact (Settings.changes_set hset).keeps
  | reset key =>
    rcases hreset : s.reset key with e | ⟨w, s'⟩
    · simp only [adjust, hreset]
      exact .refl s
    · simp only [adjust, hreset]
      exact (Settings.changes_reset hreset).keeps

theorem keeps_foldl_adjust (s : Settings) (as : List Adjustment) : s.Keeps (as.foldl adjust s) := by
  induction as generalizing s with
  | nil => exact .refl s
  | cons a as ih => exact (keeps_adjust s a).trans (ih _)

private theorem wired_installed (hstart : installed {} plan = .ok h) : h.Wired := by
  cases plan with
  | none =>
    obtain rfl := Except.ok.inj hstart
    exact ⟨.start, Settings.typed_empty, ⟨nofun, nofun⟩⟩
  | some plan =>
    have htable : (Host.install {} plan).2.world.table = {} := Host.table_install {} plan
    have hwired : (Host.install {} plan).2.Wired := by
      refine ⟨Host.Reached.start.install plan, (World.changes_install {} plan).keeps.typed Settings.typed_empty,
        ⟨fun {id g} hg => ?_, fun {id b} hb => ?_⟩⟩
      · rcases World.get?_install {} plan id with hnone | ⟨patch, -, -, g', hpatch, hbecomes⟩
        · cases hnone.symm.trans hg
        · obtain rfl := Option.some.inj (hpatch.symm.trans hg)
          obtain ⟨rs, rfl, hbound⟩ := hbecomes.eq
          exact ⟨rs, rfl, declared_of_bound hbound⟩
      · rw [htable] at hb
        cases hb
    unfold installed at hstart
    dsimp only at hstart
    split at hstart
    · rename_i hinstall
      rw [hinstall] at hwired
      exact Except.ok.inj hstart ▸ hwired
    · cases hstart

/-- At the beginning of a session, all settings have values of their types, and the patches read settings only. -/
theorem wired_start (hstart : start plan snap = .ok h) : h.Wired := by
  obtain ⟨h₁, hinstalled, hstart⟩ := bind_eq_ok.1 hstart
  obtain ⟨h₂, hrestored, hstart⟩ := bind_eq_ok.1 hstart
  obtain rfl := Except.ok.inj hstart
  have hw := wired_installed hinstalled
  have hw₂ : h₂.Wired := by
    cases snap with
    | none => exact Except.ok.inj hrestored ▸ hw
    | some snap =>
      obtain ⟨⟨n, s⟩, hsnap, rfl⟩ := map_eq_ok.1 hrestored
      exact hw.withSettings (Settings.changes_applySnapshot hsnap).keeps
  exact ⟨hw₂.reached.subscribe .registry, hw₂.typed, hw₂.wired⟩

/-- Loading parsed methods keeps the bodies wired, and gives a body to each of the methods. -/
theorem wired_load {bs : List Body} (hw : h.Wired) (hbs : ∀ b ∈ bs, b.Numbered ∧ b.externals = #[])
    (hload : load h bs = .ok h') :
    h'.Wired ∧ (∀ id, h.Managed id → h'.Managed id) ∧ ∀ b ∈ bs, h'.Managed b.method := by
  induction bs generalizing h with
  | nil =>
    obtain rfl := Except.ok.inj hload
    exact ⟨hw, fun id hm => hm, List.forall_mem_nil _⟩
  | cons b bs ih =>
    obtain ⟨⟨hnumbered, hexternals⟩, hrest⟩ := List.forall_mem_cons.1 hbs
    rcases hdefine : h.define b with e | h₁
    · simp only [load, Host.defineAll, hdefine] at hload
      cases hload
    · simp only [load, Host.defineAll, hdefine] at hload
      obtain ⟨hw₁, hself, hothers⟩ := hw.define hnumbered hexternals hdefine
      obtain ⟨hlast, hkept, hmanaged⟩ := ih hw₁ hrest hload
      exact ⟨hlast, fun id hm => hkept id (hothers id hm), List.forall_mem_cons.2 ⟨hkept _ hself, hmanaged⟩⟩

/-- Whatever plan and snapshot a session starts with, whatever parsed methods are loaded, and whatever becomes of the
settings then: a method that was loaded, run on arguments that were read for its signature, returns a value of its
return type, or none if it has no return type, unless it divides by zero or reaches the step limit. -/
theorem invoke_adjusted {bs : List Body} (hstart : start plan snap = .ok h)
    (hbs : ∀ b ∈ bs, ∃ src bs', Assembly.bodies src = .ok bs' ∧ b ∈ bs') (hload : load h bs = .ok h')
    (as : List Adjustment) {id : MethodId} (hid : id ∈ bs.map Body.method) :
    ∃ sig, (adjusted h' as).world.table.signature id = .ok sig ∧
      ∀ tokens values, readArguments sig.params tokens = .ok values →
        (∃ v, ((adjusted h' as).invoke id values).1 = .ok v ∧ v.map Value.type = sig.returns) ∨
        (∃ pos, ((adjusted h' as).invoke id values).1 = .error (.divisionByZero pos)) ∨
        ((adjusted h' as).invoke id values).1 = .error (.stepLimit Execution.defaultLimit) := by
  have hparsed (b : Body) (hb : b ∈ bs) : b.Numbered ∧ b.externals = #[] := by
    obtain ⟨src, bs', hsrc, hmem⟩ := hbs b hb
    exact ⟨Assembly.numbered_of_bodies hsrc hmem, Assembly.externals_of_bodies hsrc hmem⟩
  obtain ⟨hw, -, hmanaged⟩ := wired_load (wired_start hstart) hparsed hload
  obtain ⟨b, hb, rfl⟩ := List.mem_map.1 hid
  have hadjusted : (adjusted h' as).Wired := hw.withSettings (keeps_foldl_adjust _ as)
  obtain ⟨sig, hsig, hruns⟩ := hadjusted.invoke (hmanaged b hb)
  exact ⟨sig, hsig, fun tokens values hvalues => hruns values (types_of_readArguments hvalues)⟩

def game : String :=
  ".method Game::rate(i32) -> i32\n    ldarg 0\n    ldc.i4 5\n    add\n    ret\n\n" ++
    ".method Game::cap() -> i32\n    ldc.i4 5\n    ret\n"

/-- A session with these methods. The patch of the first one is applied, and that of the second one fails. -/
def gameSession : Option (Host × List Body × Host) := do
  let h ← (start (some Host.rates) (some ⟨[("rate", .i32 7)]⟩)).toOption
  let bs ← (Assembly.bodies game.toList).toOption
  let h' ← (load h bs).toOption
  return (h, bs, h')

theorem invoke_adjusted_game : ∃ h bs h', gameSession = some (h, bs, h') ∧ ∃ r,
    ((adjusted h' [.set "rate" (.i32 9), .set "rate" (.bool true)]).invoke ⟨"Game", "rate"⟩ [.i32 3]).1 = r ∧
      ((∃ v, r = .ok v ∧ v.map Value.type = some .i32) ∨ (∃ pos, r = .error (.divisionByZero pos)) ∨
        r = .error (.stepLimit Execution.defaultLimit)) := by
  have hfacts : (gameSession.map fun (_, bs, h') =>
      (bs.map Body.method, (h'.world.table.signature ⟨"Game", "rate"⟩).toOption)) =
        some ([⟨"Game", "rate"⟩, ⟨"Game", "cap"⟩], some ⟨[.i32], [], some .i32⟩) := by
    decide +kernel
  obtain ⟨⟨h, bs, h'⟩, hsession, hfacts⟩ := Option.map_eq_some_iff.1 hfacts
  obtain ⟨hmethods, hsignature⟩ := Prod.mk.inj hfacts
  have hsignature : h'.world.table.signature ⟨"Game", "rate"⟩ = .ok ⟨[.i32], [], some .i32⟩ :=
    toOption_eq_some.1 hsignature
  have hsession' := hsession
  unfold gameSession at hsession'
  simp only [Option.bind_eq_bind, Option.bind_eq_some_iff, Option.pure_def, Option.some.injEq, Prod.mk.injEq]
    at hsession'
  obtain ⟨h, hstart, bs, hbodies, h', hload, rfl, rfl, rfl⟩ := hsession'
  have hid : ⟨"Game", "rate"⟩ ∈ bs.map Body.method := hmethods ▸ List.mem_cons_self
  obtain ⟨sig, hsig, hruns⟩ := invoke_adjusted (toOption_eq_some.1 hstart)
    (fun b hb => ⟨_, bs, toOption_eq_some.1 hbodies, hb⟩) (toOption_eq_some.1 hload)
    [.set "rate" (.i32 9), .set "rate" (.bool true)] hid
  obtain rfl := Except.ok.inj (hsig.symm.trans hsignature)
  have hread : readArguments [.i32] ["3"] = .ok [.i32 3] := toOption_eq_some.1 (by decide +kernel)
  exact ⟨h, bs, h', hsession, _, rfl, hruns ["3"] [.i32 3] hread⟩

end Session

end Graft

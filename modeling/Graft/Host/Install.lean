import Graft.Host.Registry

/-!
# Installing plans

Installing a plan registers its settings and then its patches. Nothing is applied before a method is loaded.
-/

namespace Graft

/-- The number of settings and patches of a plan that were registered, and of patches whose method had one. -/
structure InstallReport where
  settings : Nat := 0
  patches : Nat := 0
  skipped : Nat := 0
deriving DecidableEq, Repr, Inhabited

namespace Plan

/-- Registers settings up to the first whose key has another type. -/
def registerSettings : Settings → List SettingSpec → Except PatchError Unit × Settings
  | s, [] => (.ok (), s)
  | s, spec :: specs =>
    match s.register spec.key spec.default spec.label spec.category with
    | .error e => (.error e, s)
    | .ok s => registerSettings s specs

/-- The rules of a patch with the settings that they read. -/
def bindRules (p : Providers) (rules : List Rule) : Except PatchError (List BoundRule) :=
  rules.mapM fun r =>
    match p.settingBinding? r.setting with
    | some x => .ok ⟨r, x⟩
    | none => .error (.plan (.missing r.setting))

/-- Registers patches. -/
def registerPatches (p : Providers) : Registry → InstallReport → List PlanPatch →
    Except PatchError InstallReport × Registry
  | g, report, [] => (.ok report, g)
  | g, report, patch :: patches =>
    match bindRules p patch.rules with
    | .error e => (.error e, g)
    | .ok rules =>
      match g.register patch.target patch.name (.rules rules) with
      | (true, g) => registerPatches p g { report with patches := report.patches + 1 } patches
      | (false, g) => registerPatches p g { report with skipped := report.skipped + 1 } patches

end Plan

/-- Registers the settings and the patches of a plan. Settings that were registered before a failure stay. -/
def World.install (w : World) (plan : Plan) : Except PatchError InstallReport × World :=
  match plan.validate with
  | .error e => (.error e, w)
  | .ok () =>
    match Plan.registerSettings w.providers.settings plan.settings with
    | (.error e, s) => (.error e, { w with providers := { w.providers with settings := s } })
    | (.ok (), s) =>
      let p := { w.providers with settings := s }
      let (result, g) := Plan.registerPatches p w.registry { settings := plan.settings.length } plan.patches
      (result, { w with providers := p, registry := g })

end Graft

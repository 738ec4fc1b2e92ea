import Graft.Command.Run
import Graft.Proofs.Body.CanonicalBytes
import Graft.Proofs.Form.Plan
import Graft.Proofs.Host.Redefinition

/-!
# What a patch command prints

A patch command that succeeds prints, for each target of the plan that the module defines, the digest that was noted
when the rules were applied, and below it the listing of the live body (`Command.patch_prints`). These belong together
exactly if the module does not define the target again behind the definition to which the rules were applied.

* `Printout` is what is printed for one target, and `Command.printPatched_eq` puts the output together.
* `Printout.Traced` says which definitions of the module a printout comes from.
-/

namespace Graft

/-- A body with a digest can be encoded. -/
theorem Body.exists_encode {b : Body} {digest : String} (h : b.digestText = .ok digest) :
    ∃ bytes, b.encode = .ok bytes := by
  cases hencode : b.encode with
  | ok bytes => exact ⟨bytes, rfl⟩
  | error e => cases h.symm.trans (digestText_eq_error.2 hencode)

/-- What is printed for one method. -/
structure Printout where
  target : MethodId
  digest : String
  body : Body

namespace Printout

/-- The line with the digest, the listing, and a blank line. -/
def text (p : Printout) : String := Command.printPatched.headline p.target p.digest ++ p.body.listing ++ "\n"

/-- The printout comes from the definitions that the module has for its target: the rules of the plan failed on those
`before`, they made `patched` of the one that is called `loaded`, and this gave the digest. The last one of those
`after` is live, or else `patched`. -/
structure Traced (p : Printout) (plan : Plan) (bs : List Body) (rs : List BoundRule) (before : List Body)
    (loaded : Body) (after : List Body) (patched : Body) : Prop where
  rules : plan.Provides p.target rs
  definitions : Body.definitions p.target bs = before ++ loaded :: after
  applies : BoundRule.Applies rs before loaded patched p.digest
  live : p.body.asOf none = (after.getLast?.getD patched).asOf none

variable {p : Printout} {plan : Plan} {bs before after : List Body} {rs : List BoundRule} {loaded patched : Body}

theorem Traced.loaded_mem (h : p.Traced plan bs rs before loaded after patched) :
    loaded ∈ bs ∧ loaded.method = p.target := by
  have hmem : loaded ∈ Body.definitions p.target bs := by simp [h.definitions]
  exact ⟨(List.mem_filter.1 hmem).1, of_decide_eq_true (List.mem_filter.1 hmem).2⟩

theorem Traced.after_mem (h : p.Traced plan bs rs before loaded after patched) {b : Body} (hb : b ∈ after) :
    b ∈ bs := by
  have hmem : b ∈ Body.definitions p.target bs := by simp [h.definitions, hb]
  exact (List.mem_filter.1 hmem).1

/-- The rules have put rows into the table of external values, and no body that was just read has one. So the bytes
differ as soon as there is a later definition. -/
theorem Traced.encode_iff (h : p.Traced plan bs rs before loaded after patched)
    (hnumbered : ∀ b ∈ bs, b.Numbered) (hverified : ∀ b ∈ bs, b.verify = .ok ())
    (hexternals : ∀ b ∈ bs, b.externals = #[]) : p.body.encode = patched.encode ↔ after = [] := by
  obtain ⟨hloaded, -⟩ := h.loaded_mem
  constructor
  · intro hsame
    by_contra hafter
    have hlast : p.body.externals = #[] := by
      have hlive := h.live
      rw [List.getLast?_eq_some_getLast hafter] at hlive
      have hmem : after.getLast hafter ∈ bs := h.after_mem (List.getLast_mem hafter)
      exact (congrArg Body.externals hlive :).trans (hexternals _ hmem :)
    have hrows : patched.externals = (rs.map BoundRule.binding).toArray := by
      have htyped := Typing.wellTyped_of_findings (Typing.verify_eq_ok.1 (hverified loaded hloaded))
      have hpatched := BoundRule.patched_of_applyAll (hnumbered loaded hloaded) htyped h.applies.rules
      rw [hpatched.externals, hexternals loaded hloaded, Array.empty_append]
    obtain ⟨bytes, hbytes⟩ := Body.exists_encode h.applies.digest
    have hcontent := congrArg Content.externals (Body.content_eq_of_encode_eq (hsame.trans hbytes) hbytes)
    rw [Body.content, Body.content, hlast, hrows] at hcontent
    obtain ⟨-, -, -, -, hne⟩ := h.rules
    have hnone : rs.length = 0 := by simpa using (congrArg List.length hcontent).symm
    exact hne (List.length_eq_zero_iff.1 hnone)
  · rintro rfl
    have hlive : p.body.asOf none = patched.asOf none := h.live
    show (p.body.asOf none).encode = (patched.asOf none).encode
    rw [hlive]

end Printout

/-- The printout of a method whose rules were applied. -/
def World.printout? (w : World) (target : MethodId) : Option Printout :=
  match (w.registry.get? target).map Registration.state with
  | some (.applied digest) => (w.table.body target).toOption.map fun b => ⟨target, digest, b⟩
  | _ => none

theorem World.printout?_eq_some {w : World} {target : MethodId} {p : Printout} : w.printout? target = some p ↔
    p.target = target ∧ w.table.body target = .ok p.body ∧
      ∃ g, w.registry.get? target = some g ∧ g.state = .applied p.digest := by
  unfold printout?
  split
  · rename_i digest hstate
    obtain ⟨g, hg, happlied⟩ := Option.map_eq_some_iff.1 hstate
    rw [Option.map_eq_some_iff]
    constructor
    · rintro ⟨b, hb, rfl⟩
      exact ⟨rfl, toOption_eq_some.1 hb, g, hg, happlied⟩
    · rintro ⟨rfl, hb, g', hg', hdigest⟩
      obtain rfl := Option.some.inj (hg.symm.trans hg')
      obtain rfl := PatchState.applied.inj (happlied.symm.trans hdigest)
      exact ⟨p.body, toOption_eq_some.2 hb, rfl⟩
  · rename_i hstate
    refine ⟨nofun, fun ⟨_, _, g, hg, happlied⟩ => ?_⟩
    exact absurd (Option.map_eq_some_iff.2 ⟨g, hg, happlied⟩) (hstate p.digest)

/-- The printouts are those of the methods that have one, in the same order. -/
private theorem map_target_printouts (w : World) (targets : List MethodId) :
    (targets.filterMap w.printout?).map Printout.target = targets.filter fun id => (w.printout? id).isSome := by
  induction targets with
  | nil => rfl
  | cons id targets ih =>
    cases hid : w.printout? id with
    | none => rw [List.filterMap_cons_none hid, List.filter_cons_of_neg (by simp [hid]), ih]
    | some p =>
      rw [List.filterMap_cons_some hid, List.filter_cons_of_pos (by simp [hid]), List.map_cons, ih,
        (World.printout?_eq_some.1 hid).1]

namespace Host.Tracks

variable {h : Host} {plan : Plan} {bs : List Body} {id : MethodId}

theorem traced (ht : h.Tracks plan bs) {p : Printout} (hp : h.world.printout? id = some p) :
    ∃ rs before loaded after patched, p.Traced plan bs rs before loaded after patched := by
  obtain ⟨rfl, hbody, g, hg, hstate⟩ := World.printout?_eq_some.1 hp
  obtain ⟨rs, before, loaded, after, patched, hrules, hdefinitions, happlies, hlive⟩ := ht.applied hg hstate hbody
  exact ⟨rs, before, loaded, after, patched, hrules, hdefinitions, happlies, hlive⟩

/-- If a target has a printout or waits, then it has one exactly if it is defined. -/
theorem isSome_printout (ht : h.Tracks plan bs) (hid : id ∈ plan.targets)
    (hprinted : (h.world.printout? id).isSome = true ∨ ∀ g, h.world.registry.get? id = some g → g.state = .pending) :
    (h.world.printout? id).isSome = true ↔ id ∈ bs.map Body.method := by
  obtain ⟨g, hg⟩ := Option.isSome_iff_exists.1 (ht.targets id hid)
  constructor
  · intro hsome
    obtain ⟨p, hp⟩ := Option.isSome_iff_exists.1 hsome
    obtain ⟨-, -, g', hg', hstate⟩ := World.printout?_eq_some.1 hp
    by_contra hmem
    have hpending := (ht.pending_iff hg').2 hmem
    cases hpending.symm.trans hstate
  · intro hmem
    rcases hprinted with hsome | hpending
    · exact hsome
    · exact absurd hmem ((ht.pending_iff hg).1 (hpending g hg))

end Host.Tracks

namespace Command

variable {files : String → Except FileError String} {w : World} {targets : List MethodId}

/-- If nothing fails at a target, its printout comes first, or it waits and is passed over. -/
private theorem printPatched_cons {target : MethodId} (h : (printPatched w (target :: targets)).error = none) :
    (∃ p, w.printout? target = some p ∧
      printPatched w (target :: targets) = (printPatched w targets).prepend p.text) ∨
    w.printout? target = none ∧ (∀ g, w.registry.get? target = some g → g.state = .pending) ∧
      printPatched w (target :: targets) = printPatched w targets := by
  have hwaits (hpending : ∀ g, w.registry.get? target = some g → g.state = .pending) :
      w.printout? target = none := by
    refine Option.eq_none_iff_forall_ne_some.2 fun p hp => ?_
    obtain ⟨-, -, g, hg, happlied⟩ := World.printout?_eq_some.1 hp
    cases happlied.symm.trans (hpending g hg)
  rw [printPatched] at h ⊢
  cases hg : w.registry.get? target with
  | none =>
    have hpending : ∀ g, w.registry.get? target = some g → g.state = .pending := by
      rw [hg]
      exact nofun
    exact .inr ⟨hwaits hpending, hg ▸ hpending, rfl⟩
  | some g =>
    rw [hg] at h
    obtain ⟨name, patch, state⟩ := g
    cases state with
    | pending =>
      have hpending : ∀ g, w.registry.get? target = some g → g.state = .pending := by
        rw [hg]
        rintro _ ⟨⟩
        rfl
      exact .inr ⟨hwaits hpending, hg ▸ hpending, rfl⟩
    | failed e => cases h
    | applied digest =>
      dsimp only [Option.map_some] at h ⊢
      cases hb : w.table.body target with
      | error e =>
        rw [hb] at h
        cases h
      | ok b => exact .inl ⟨⟨target, digest, b⟩, World.printout?_eq_some.2 ⟨rfl, hb, _, hg, rfl⟩, rfl⟩

/-- If nothing fails, what was applied is printed, and everything else is still pending. -/
theorem printPatched_eq (h : (printPatched w targets).error = none) :
    (printPatched w targets).output = String.join ((targets.filterMap w.printout?).map Printout.text) ∧
      ∀ t ∈ targets, (w.printout? t).isSome = true ∨ ∀ g, w.registry.get? t = some g → g.state = .pending := by
  induction targets with
  | nil => exact ⟨rfl, nofun⟩
  | cons target targets ih =>
    rcases printPatched_cons h with ⟨p, hp, heq⟩ | ⟨hnone, hpending, heq⟩
    · rw [heq] at h ⊢
      obtain ⟨houtput, hothers⟩ := ih h
      rw [List.filterMap_cons_some hp, List.map_cons, String.join_cons, ← houtput]
      refine ⟨rfl, fun t ht => ?_⟩
      rcases List.mem_cons.1 ht with rfl | ht
      · exact .inl (by rw [hp]; rfl)
      · exact hothers t ht
    · rw [heq] at h ⊢
      obtain ⟨houtput, hothers⟩ := ih h
      rw [List.filterMap_cons_none hnone]
      refine ⟨houtput, fun t ht => ?_⟩
      rcases List.mem_cons.1 ht with rfl | ht
      · exact .inr hpending
      · exact hothers t ht

private theorem ofExcept_eq {x : Except CommandError Outcome} {o : Outcome} (h : Outcome.ofExcept x = o)
    (hok : o.error = none) : x = .ok o := by
  subst h
  cases x with
  | error e => cases hok
  | ok o => rfl

/-- If there is a report, the live bodies have digests. -/
private theorem exists_digest {ids : List MethodId} {content : Json} (h : w.report ids = .ok content) {id : MethodId}
    (hid : id ∈ ids) {b : Body} (hb : w.table.body id = .ok b) : ∃ digest, b.digestText = .ok digest := by
  obtain ⟨digests, hdigests, -⟩ := bind_eq_ok.1 h
  obtain ⟨told, htold⟩ := exists_of_mapM hdigests hid
  obtain ⟨b', hb', htold⟩ := bind_eq_ok.1 htold
  obtain rfl := Except.ok.inj (hb.symm.trans hb')
  obtain ⟨digest, hdigest, -⟩ := bind_eq_ok.1 htold
  exact ⟨digest, hdigest⟩

/-- The host from which a patch command that succeeds prints. -/
private theorem exists_host {input planPath : String} {settings report : Option String} {o : Outcome}
    (h : (Command.patch input planPath settings report).perform files = o) (hok : o.error = none) :
    ∃ (plan : Plan) (bs : List Body) (host : Host), readPlan files planPath = .ok plan ∧
      readBodies files input = .ok bs ∧ host.Tracks plan bs ∧
      (∃ content, host.world.report (bs.map Body.method) = .ok content) ∧
      (printPatched host.world plan.targets).error = none ∧
      o.output = (printPatched host.world plan.targets).output := by
  obtain ⟨plan, hplan, h⟩ := bind_eq_ok.1 (ofExcept_eq h hok)
  obtain ⟨snap, -, h⟩ := bind_eq_ok.1 h
  obtain ⟨bs, hbs, h⟩ := bind_eq_ok.1 h
  obtain ⟨⟨host, ids⟩, hsession, h⟩ := bind_eq_ok.1 h
  obtain ⟨content, hcontent, hend⟩ := bind_eq_ok.1 h
  obtain ⟨start, hstart, hsession⟩ := bind_eq_ok.1 hsession
  obtain ⟨loaded, hload, hsession⟩ := bind_eq_ok.1 hsession
  obtain ⟨rfl, rfl⟩ := Prod.mk.inj (Except.ok.inj hsession)
  have htracks := (Host.tracks_start (mapError_eq_ok.1 hstart)).load (mapError_eq_ok.1 hload)
  refine ⟨plan, bs, loaded, hplan, hbs, htracks, ⟨content, mapError_eq_ok.1 hcontent⟩, ?_⟩
  -- the report changes nothing of what is printed
  dsimp only at hend
  split at hend
  · obtain rfl := Except.ok.inj hend
    exact ⟨hok, rfl⟩
  · have ho := Except.ok.inj hend
    rw [← ho] at hok ⊢
    exact ⟨hok, rfl⟩

private theorem encode_iff_of_readBodies {input : String} {plan : Plan} {bs before after : List Body}
    {rs : List BoundRule} {loaded patched : Body} {p : Printout} (hbs : readBodies files input = .ok bs)
    (hverified : ∀ b ∈ bs, b.verify = .ok ()) (h : p.Traced plan bs rs before loaded after patched) :
    p.body.encode = patched.encode ↔ after = [] := by
  obtain ⟨src, -, hread⟩ := bind_eq_ok.1 hbs
  have hread' := mapError_eq_ok.1 hread
  exact h.encode_iff (fun b hb => Assembly.numbered_of_bodies hread' hb) hverified
    fun b hb => Assembly.externals_of_bodies hread' hb

/-- A patch command that succeeds prints each target of the plan that the module defines, with the digest of the body
that the rules have made of one of its definitions. The listing below is that of this body, or else that of the last
definition behind, if there is one, and then it is the listing of other bytes than those of the digest. -/
theorem patch_prints {input planPath : String} {settings report : Option String}
    (h : ((Command.patch input planPath settings report).perform files).error = none) :
    ∃ (plan : Plan) (bs : List Body) (ps : List Printout), readPlan files planPath = .ok plan ∧
      readBodies files input = .ok bs ∧
      ((Command.patch input planPath settings report).perform files).output = String.join (ps.map Printout.text) ∧
      ps.map Printout.target = plan.targets.filter (fun id => id ∈ bs.map Body.method) ∧
      ∀ p ∈ ps, ∃ rs before loaded after patched, p.Traced plan bs rs before loaded after patched ∧
        (after = [] → p.body.digestText = .ok p.digest) ∧
        ∃ noted listed, patched.encode = .ok noted ∧ p.body.encode = .ok listed ∧ (listed = noted ↔ after = []) := by
  obtain ⟨plan, bs, host, hplan, hbs, htracks, ⟨content, hreport⟩, herror, houtput⟩ := exists_host rfl h
  obtain ⟨hprinted, hall⟩ := printPatched_eq herror
  refine ⟨plan, bs, plan.targets.filterMap host.world.printout?, hplan, hbs, houtput.trans hprinted, ?_, fun p hp => ?_⟩
  · rw [map_target_printouts]
    refine List.filter_congr fun id hid => Bool.eq_iff_iff.2 (Iff.trans ?_ decide_eq_true_iff.symm)
    exact htracks.isSome_printout hid (hall id hid)
  · obtain ⟨target, -, hprintout⟩ := List.mem_filterMap.1 hp
    obtain ⟨rs, before, loaded, after, patched, htraced⟩ := htracks.traced hprintout
    have hbytes := encode_iff_of_readBodies hbs htracks.verified htraced
    obtain ⟨htarget, hbody, -⟩ := World.printout?_eq_some.1 hprintout
    obtain ⟨hloaded, hmethod⟩ := htraced.loaded_mem
    obtain ⟨digest, hdigest⟩ :=
      exists_digest hreport (List.mem_map.2 ⟨loaded, hloaded, hmethod.trans htarget⟩) hbody
    obtain ⟨listed, hlisted⟩ := Body.exists_encode hdigest
    obtain ⟨noted, hnoted⟩ := Body.exists_encode htraced.applies.digest
    refine ⟨rs, before, loaded, after, patched, htraced, ?_, noted, listed, hnoted, hlisted, ?_⟩
    · rintro rfl
      rw [← Body.digestText_asOf p.body none, htraced.live]
      exact htraced.applies.digest
    · rw [← hbytes, hlisted, hnoted, Except.ok.injEq]

/-! ### A flag -/

/-- A plan that reads a flag from a setting. -/
private def flagPlan : Plan where
  settings := [⟨"k", .bool true, "", ""⟩]
  patches := [⟨⟨"A", "f"⟩, "", [⟨.any, 1, "k"⟩]⟩]

/-- A method with a constant flag. -/
private def flag : Body where
  method := ⟨"A", "f"⟩
  signature := ⟨[], [], some .bool⟩
  entries := [⟨⟨0⟩, .ldcBool, [.immediate (.bool true)]⟩, ⟨⟨1⟩, .ret, []⟩]
  nextId := 2

/-- The method in a module. -/
private def flagText : String := ".method A::f() -> bool\nldc.bool true\nret\n"

/-- Two files, the plan and a module, which may define the method again. -/
def flagFiles (again : Bool) (name : String) : Except FileError String :=
  .ok (if name = "flag.json" then flagPlan.text else if again then flagText ++ flagText else flagText)

/-- What comes of patching the module. -/
def flagOutcome (again : Bool) : Outcome :=
  (Command.patch "flag.asm" "flag.json" none none).perform (flagFiles again)

private theorem readPlan_flag (again : Bool) : readPlan (flagFiles again) "flag.json" = .ok flagPlan := by
  have hread : Plan.form.read (Plan.form.write flagPlan) = some flagPlan := rfl
  have hreturns := Plan.roundTrips_form _ _ hread
  have hplan : Plan.ofText flagPlan.text = .ok flagPlan :=
    Plan.ofText_of_validate (hreturns.ofText?_pretty (by decide)) rfl
  have hfile : readFile (flagFiles again) "flag.json" = .ok flagPlan.text :=
    mapError_eq_ok.2 (congrArg Except.ok (if_pos rfl))
  exact bind_eq_ok.2 ⟨_, hfile, mapError_eq_ok.2 hplan⟩

private theorem readBodies_flag (again : Bool) :
    readBodies (flagFiles again) "flag.asm" = .ok (if again then [flag, flag] else [flag]) := by
  cases again <;> rfl

private theorem flagOutcome_error (again : Bool) : (flagOutcome again).error = none := by
  unfold flagOutcome perform
  dsimp only
  rw [readPlan_flag, readBodies_flag]
  refine Option.isNone_iff_eq_none.1 ?_
  cases again <;> decide +kernel

/-- The rules do not fail on the first definition. -/
private theorem after_flag (again : Bool) {p : Printout} {rs : List BoundRule} {before after : List Body}
    {loaded patched : Body}
    (h : p.Traced flagPlan (if again then [flag, flag] else [flag]) rs before loaded after patched)
    (htarget : p.target = flag.method) : after = if again then [flag] else [] := by
  have hdefinitions : (if again then [flag, flag] else [flag]) = before ++ loaded :: after := by
    rw [← h.definitions, htarget]
    cases again <;> rfl
  have hflag : ∀ b ∈ before ++ loaded :: after, b = flag := by
    rw [← hdefinitions]
    cases again <;> simp
  have hbefore : before = [] := h.applies.before_eq_nil fun b hb =>
    (hflag b (by simp [hb])).trans (hflag loaded (by simp)).symm
  subst hbefore
  refine (congrArg List.tail hdefinitions).symm.trans ?_
  cases again <;> rfl

/-- With one definition the digest is that of the listing, and with a second one it is not. -/
theorem patch_prints_flag : (flagOutcome false).error = none ∧ (flagOutcome true).error = none ∧
    (∃ p : Printout, (flagOutcome false).output = p.text ∧ p.target = flag.method ∧
      p.body.digestText = .ok p.digest) ∧
    ∃ (p : Printout) (patched : Body) (noted listed : List UInt8), (flagOutcome true).output = p.text ∧
      p.target = flag.method ∧ patched.digestText = .ok p.digest ∧ patched.encode = .ok noted ∧
      p.body.encode = .ok listed ∧ listed ≠ noted := by
  have hprinted (again : Bool) : ∃ (p : Printout) (after : List Body) (patched : Body) (noted listed : List UInt8),
      (flagOutcome again).output = p.text ∧ p.target = flag.method ∧ patched.digestText = .ok p.digest ∧
      (after = [] → p.body.digestText = .ok p.digest) ∧ patched.encode = .ok noted ∧ p.body.encode = .ok listed ∧
      (listed = noted ↔ after = []) ∧ after = if again then [flag] else [] := by
    obtain ⟨plan, bs, ps, hplan, hbs, houtput, hps, hall⟩ := patch_prints (flagOutcome_error again)
    obtain rfl := Except.ok.inj ((readPlan_flag again).symm.trans hplan)
    obtain rfl := Except.ok.inj ((readBodies_flag again).symm.trans hbs)
    have htargets : ps.map Printout.target = [flag.method] := by
      rw [hps]
      cases again <;> rfl
    obtain ⟨p, ps, rfl, htarget, hnil⟩ := List.map_eq_cons_iff.1 htargets
    obtain rfl := List.map_eq_nil_iff.1 hnil
    rw [List.map_cons, List.map_nil, String.join_cons, String.join_nil, String.append_empty] at houtput
    obtain ⟨rs, before, loaded, after, patched, htraced, hdigest, noted, listed, hnoted, hlisted, hsame⟩ :=
      hall p List.mem_cons_self
    exact ⟨p, after, patched, noted, listed, houtput, htarget, htraced.applies.digest, hdigest, hnoted, hlisted, hsame,
      after_flag again htraced htarget⟩
  obtain ⟨p, _, _, _, _, houtput, htarget, -, hdigest, -, -, -, hafter⟩ := hprinted false
  obtain ⟨p', _, patched, noted, listed, houtput', htarget', hdigest', -, hnoted, hlisted, hsame, rfl⟩ := hprinted true
  exact ⟨flagOutcome_error false, flagOutcome_error true, ⟨p, houtput, htarget, hdigest hafter⟩,
    p', patched, noted, listed, houtput', htarget', hdigest', hnoted, hlisted, fun h => nomatch hsame.1 h⟩

/-- A listing is not always that of the body whose digest is printed above it. -/
theorem not_patch_prints : ¬ ∀ (files : String → Except FileError String) (input planPath : String)
    (settings report : Option String) (plan : Plan) (bs : List Body) (ps : List Printout),
    ((Command.patch input planPath settings report).perform files).error = none → readPlan files planPath = .ok plan →
    readBodies files input = .ok bs →
    ((Command.patch input planPath settings report).perform files).output = String.join (ps.map Printout.text) →
    ∀ p ∈ ps, ∀ rs before loaded after patched, p.Traced plan bs rs before loaded after patched →
      p.body.encode = patched.encode := by
  intro hall
  obtain ⟨plan, bs, host, hplan, hbs, htracks, -, herror, houtput⟩ := exists_host rfl (flagOutcome_error true)
  obtain rfl := Except.ok.inj ((readPlan_flag true).symm.trans hplan)
  obtain rfl := Except.ok.inj ((readBodies_flag true).symm.trans hbs)
  obtain ⟨hprinted, hwaits⟩ := printPatched_eq herror
  have htarget : flag.method ∈ flagPlan.targets := List.mem_cons_self
  obtain ⟨p, hp⟩ := Option.isSome_iff_exists.1
    ((htracks.isSome_printout htarget (hwaits _ htarget)).2 List.mem_cons_self)
  obtain ⟨rs, before, loaded, after, patched, htraced⟩ := htracks.traced hp
  have hsame := hall (flagFiles true) "flag.asm" "flag.json" none none flagPlan [flag, flag] _ (flagOutcome_error true)
    hplan hbs (houtput.trans hprinted) p (List.mem_filterMap.2 ⟨_, htarget, hp⟩) rs before loaded after patched htraced
  have hnone : after = [] := (encode_iff_of_readBodies hbs htracks.verified htraced).1 hsame
  cases hnone.symm.trans (after_flag true htraced (World.printout?_eq_some.1 hp).1)

end Command

end Graft

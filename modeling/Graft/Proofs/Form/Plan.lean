import Graft.Form.Plan
import Graft.Proofs.Dict
import Graft.Proofs.Form.Pattern

/-!
# Plans and snapshots are read from their texts

The forms of plans and of what they consist of read what they write; so does the form of snapshots, whose entries are
written in the order of their keys. A plan that was accepted is accepted again from its text.
-/

namespace Graft

open Json

variable {j : Json}

/-! ### Declarations -/

theorem SettingSpec.returns_form (s : SettingSpec) : form.Returns s 2 := by
  have hkey := Form.returns_string s.key 1
  have hdefault := s.default.returns_form
  have hlabel := Form.returns_string s.label 1
  have hcategory := Form.returns_string s.category 1
  obtain ⟨js, hjs⟩ : ∃ js, js = [Form.string.write s.key, Value.form.write s.default, Form.string.write s.label,
    Form.string.write s.category] := ⟨_, rfl⟩
  have hwrite : form.write s = .obj (["key", "default", "label", "category"].zip js) := by
    rw [hjs]
    rfl
  have hfields : ∀ j ∈ js, j.Plain ∧ j.depth ≤ 1 := by
    intro j hj
    simp only [hjs, List.mem_cons, List.not_mem_nil, or_false] at hj
    rcases hj with rfl | rfl | rfl | rfl
    · exact hkey.field
    · exact hdefault.field
    · exact hlabel.field
    · exact hcategory.field
  refine Form.returns_obj hwrite ?_ hfields
  have hsound : ((["key", "default", "label", "category"].zip js).all fun f => f.1 == "default" || f.2.isSound) = true := by
    refine List.all_eq_true.2 fun f hf => ?_
    rw [(hfields _ (List.of_mem_zip hf).2).1.isSound, Bool.or_true]
  have hrecord : (form.write s).record? ["key", "default", "label", "category"] 4 = some (js.map some) :=
    record?_zip hwrite (by decide) (by rw [hjs]; rfl)
  rw [hwrite] at hrecord ⊢
  rw [form]
  dsimp only [guard]
  rw [if_pos hsound, hrecord, hjs]
  simp only [List.map_cons, List.map_nil, Form.required_some, hkey.read, hdefault.read, hlabel.read, hcategory.read]
  rfl

/-! ### Rules, patches and plans -/

namespace Rule

theorem returns_form {r : Rule} {d : Nat} (hpattern : Pattern.form.Returns r.pattern d)
    (hoccurrence : (Form.natural 1 UInt64.size).Returns r.occurrence d) : form.Returns r (d + 1) := by
  have hsetting := Form.returns_string r.setting d
  have hwrite : form.write r = .obj (["pattern", "occurrence", "setting"].zip
    [Pattern.form.write r.pattern, (Form.natural 1 UInt64.size).write r.occurrence, Form.string.write r.setting]) := rfl
  refine Form.returns_record 3 hwrite (by decide) rfl (fun j hrecord => ?_) fun j hj => ?_
  · simp only [form, hrecord, List.map_cons, List.map_nil, Form.required_some, Form.optional_some, hpattern.read,
      hoccurrence.read, hsetting.read]
    rfl
  · simp only [List.mem_cons, List.not_mem_nil, or_false] at hj
    rcases hj with rfl | rfl | rfl
    · exact hpattern.field
    · exact hoccurrence.field
    · exact hsetting.field

theorem roundTrips_form : form.RoundTrips 1 := by
  intro j r h
  unfold form at h
  dsimp only at h
  split at h
  · rename_i hrecord
    obtain ⟨n, hn, hfields⟩ := exists_depth_of_record? hrecord
    obtain ⟨pattern, hpattern, h⟩ := Option.bind_eq_some_iff.1 h
    obtain ⟨occurrence, hoccurrence, h⟩ := Option.bind_eq_some_iff.1 h
    obtain ⟨setting, -, h⟩ := Option.bind_eq_some_iff.1 h
    obtain rfl := Option.some.inj h
    have hfirst := Form.returns_natural (Nat.le_refl 1) (by decide) (Nat.le_refl UInt64.size)
    have hpattern := Pattern.roundTrips_form.required (hfields _ (by simp)) hpattern
    have hoccurrence := (Form.roundTrips_natural (Nat.le_refl _)).optional hfirst (hfields _ (by simp)) hoccurrence
    exact (returns_form hpattern hoccurrence).mono (by omega)
  · cases h

end Rule

namespace PlanPatch

theorem returns_form {p : PlanPatch} {d : Nat} (htarget : MethodId.form.Returns p.target d)
    (hrules : Rule.form.list.Returns p.rules d) : form.Returns p (d + 1) := by
  have hname := Form.returns_string p.name d
  have hwrite : form.write p = .obj (["target", "name", "rules"].zip
    [MethodId.form.write p.target, Form.string.write p.name, Rule.form.list.write p.rules]) := rfl
  refine Form.returns_record 3 hwrite (by decide) rfl (fun j hrecord => ?_) fun j hj => ?_
  · simp only [form, hrecord, List.map_cons, List.map_nil, Form.required_some, htarget.read, hname.read, hrules.read]
    rfl
  · simp only [List.mem_cons, List.not_mem_nil, or_false] at hj
    rcases hj with rfl | rfl | rfl
    · exact htarget.field
    · exact hname.field
    · exact hrules.field

theorem roundTrips_form : form.RoundTrips 3 := by
  intro j p h
  unfold form at h
  dsimp only at h
  split at h
  · rename_i hrecord
    obtain ⟨n, hn, hfields⟩ := exists_depth_of_record? hrecord
    obtain ⟨target, htarget, h⟩ := Option.bind_eq_some_iff.1 h
    obtain ⟨name, -, h⟩ := Option.bind_eq_some_iff.1 h
    obtain ⟨rules, hrules, h⟩ := Option.bind_eq_some_iff.1 h
    obtain rfl := Option.some.inj h
    have htarget := MethodId.roundTrips_form.required (hfields _ (by simp)) htarget
    have hrules := Rule.roundTrips_form.list.required (hfields _ (by simp)) hrules
    exact (returns_form (htarget.mono (by omega)) hrules).mono (by omega)
  · cases h

end PlanPatch

namespace Plan

theorem returns_form {p : Plan} {d : Nat} (hsettings : SettingSpec.form.list.Returns p.settings d)
    (hpatches : PlanPatch.form.list.Returns p.patches d) : form.Returns p (d + 1) := by
  have hwrite : form.write p = .obj (["settings", "patches"].zip
    [SettingSpec.form.list.write p.settings, PlanPatch.form.list.write p.patches]) := rfl
  refine Form.returns_record 0 hwrite (by decide) rfl (fun j hrecord => ?_) fun j hj => ?_
  · simp only [form, hrecord, List.map_cons, List.map_nil, Form.optional_some, hsettings.read, hpatches.read]
    rfl
  · simp only [List.mem_cons, List.not_mem_nil, or_false] at hj
    rcases hj with rfl | rfl
    · exact hsettings.field
    · exact hpatches.field

theorem roundTrips_form : form.RoundTrips 5 := by
  intro j p h
  unfold form at h
  dsimp only at h
  split at h
  · rename_i hrecord
    obtain ⟨n, hn, hfields⟩ := exists_depth_of_record? hrecord
    obtain ⟨settings, hsettings, h⟩ := Option.bind_eq_some_iff.1 h
    obtain ⟨patches, hpatches, h⟩ := Option.bind_eq_some_iff.1 h
    obtain rfl := Option.some.inj h
    have hspecs := Form.roundTrips_of_returns SettingSpec.returns_form
    have hsettings := hspecs.list.optional (Form.returns_nil _ _) (hfields _ (by simp)) hsettings
    have hpatches := PlanPatch.roundTrips_form.list.optional (Form.returns_nil _ _) (hfields _ (by simp)) hpatches
    exact (returns_form (hsettings.mono (by omega)) hpatches).mono (by omega)
  · cases h

end Plan

/-! ### Snapshots -/

namespace Snapshot

theorem returns_form {s : Snapshot} (hs : s.Sorted) : form.Returns s 3 := by
  obtain ⟨fields, hfields⟩ : ∃ fields, fields = s.toList.map fun e => (e.1, Value.form.write e.2) := ⟨_, rfl⟩
  have hwrite : form.write s = .obj (["values"].zip [.obj fields]) := by
    rw [hfields]
    rfl
  have hentries : fields.mapM (fun f => (Value.form.read f.2).map fun v => (f.1, v)) = some s.toList := by
    rw [hfields, mapM_eq_some_iff, List.forall₂_map_left_iff, List.forall₂_same]
    intro e _
    rw [e.2.returns_form.read, Option.map_some]
  refine Form.returns_record 1 hwrite (by decide) rfl (fun j hrecord => ?_) fun j hj => ?_
  · simp only [form, hrecord, List.map_cons, List.map_nil, hentries, Option.map_some, Dict.ofList_toList hs]
  · obtain rfl := List.mem_singleton.1 hj
    have hvalue {f : String × Json} (hf : f ∈ fields) : f.2.Plain ∧ f.2.depth ≤ 1 := by
      rw [hfields] at hf
      obtain ⟨e, -, rfl⟩ := List.mem_map.1 hf
      exact ⟨e.2.returns_form.plain, e.2.returns_form.depth⟩
    exact ⟨.obj fun f hf => (hvalue hf).1, Nat.succ_le_succ (depthOfFields_le.2 fun f hf => (hvalue hf).2)⟩

theorem roundTrips_form : form.RoundTrips 3 := by
  intro j s h
  unfold form at h
  dsimp only at h
  split at h
  · obtain ⟨entries, -, rfl⟩ := Option.map_eq_some_iff.1 h
    exact (returns_form (Dict.sorted_ofList entries)).mono (Nat.le_max_left ..)
  · cases h

end Snapshot

/-! ### Texts -/

theorem Plan.ofText_of_validate {s : String} {p : Plan} (h : form.ofText? s = some p) (hvalid : p.validate = .ok ()) :
    ofText s = .ok p := by
  rw [ofText, h]
  dsimp only
  rw [hvalid]
  rfl

/-- A plan that was read and accepted is read and accepted again from its text. -/
theorem Plan.ofText_text {s : String} {p : Plan} (h : ofText s = .ok p) : ofText p.text = .ok p := by
  unfold ofText at h
  split at h
  · cases h
  · rename_i q hread
    cases hvalid : q.validate with
    | error e =>
      rw [hvalid] at h
      cases h
    | ok =>
      rw [hvalid] at h
      obtain rfl := Except.ok.inj h
      obtain ⟨-, -, hpretty⟩ := Form.rereads_of_roundTrips roundTrips_form (by decide) s q hread
      exact ofText_of_validate hpretty hvalid

theorem Snapshot.ofText_text_of_sorted {snap : Snapshot} (hsnap : snap.Sorted) : ofText snap.text = .ok snap := by
  rw [ofText, text, (returns_form hsnap).ofText?_pretty (by decide)]

theorem Snapshot.ofText_text {s : String} {snap : Snapshot} (h : ofText s = .ok snap) : ofText snap.text = .ok snap := by
  unfold ofText at h
  split at h
  · cases h
  · rename_i hread
    obtain rfl := Except.ok.inj h
    obtain ⟨-, -, hpretty⟩ := Form.rereads_of_roundTrips roundTrips_form (by decide) s _ hread
    rw [ofText, text, hpretty]

/-- Whatever is read from a text is read again from its own text, which is never nested too deep; a plan is also accepted
again. -/
theorem forms_reread :
    (Value.form.Rereads ∧ ValueType.form.Rereads ∧ Opcode.form.Rereads ∧ MethodId.form.Rereads ∧
      Signature.form.Rereads ∧ Operand.form.Rereads ∧ Instruction.form.Rereads ∧ Pattern.form.Rereads ∧
      Violation.form.Rereads ∧ Plan.form.Rereads ∧ Snapshot.form.Rereads) ∧
    (∀ (s : String) (p : Plan), Plan.ofText s = .ok p → Plan.ofText p.text = .ok p) ∧
    ∀ (s : String) (snap : Snapshot), Snapshot.ofText s = .ok snap → Snapshot.ofText snap.text = .ok snap := by
  have always {α : Type} {f : Form α} {d : Nat} (h : ∀ a, f.Returns a d) (hd : d ≤ Form.nesting) : f.Rereads :=
    Form.rereads_of_roundTrips (Form.roundTrips_of_returns h) hd
  refine ⟨⟨?_, ?_, ?_, ?_, ?_, ?_, ?_, ?_, ?_, ?_, ?_⟩, fun _ _ => Plan.ofText_text, fun _ _ => Snapshot.ofText_text⟩
  · exact always Value.returns_form (by decide)
  · exact always ValueType.returns_form (by decide)
  · exact always Opcode.returns_form (by decide)
  · exact Form.rereads_of_roundTrips MethodId.roundTrips_form (by decide)
  · exact always Signature.returns_form (by decide)
  · exact Form.rereads_of_roundTrips Operand.roundTrips_form (by decide)
  · exact Form.rereads_of_roundTrips Instruction.roundTrips_form (by decide)
  · exact Form.rereads_of_roundTrips Pattern.roundTrips_form (by decide)
  · exact Form.rereads_of_roundTrips Violation.roundTrips_form (by decide)
  · exact Form.rereads_of_roundTrips Plan.roundTrips_form (by decide)
  · exact Form.rereads_of_roundTrips Snapshot.roundTrips_form (by decide)

/-- A plan with fields in another order, an array for the patch, blanks before the method and no occurrence. -/
private def sparseText : String :=
  "\x7b\"patches\":[[\" A::f\",\"p\",[\x7b\"setting\":\"k\",\"pattern\":[\"any\"]\x7d]]]," ++
    "\"settings\":[\x7b\"label\":\"\",\"key\":\"k\",\"category\":\"\",\"default\":[\"bool\",true]\x7d]\x7d"

theorem forms_reread_sparse : ∃ p, Plan.ofText sparseText = .ok p ∧ p.settings = [⟨"k", .bool true, "", ""⟩] ∧
    p.targets = [⟨"A", "f"⟩] ∧ Plan.ofText p.text = .ok p := by
  have hparts : ((Plan.ofText sparseText).toOption.map fun p => (p.settings, p.targets)) =
      some ([⟨"k", .bool true, "", ""⟩], [⟨"A", "f"⟩]) := by decide +kernel
  obtain ⟨p, hp, hparts⟩ := Option.map_eq_some_iff.1 hparts
  obtain ⟨hsettings, htargets⟩ := Prod.mk.inj hparts
  have hread : Plan.ofText sparseText = .ok p := toOption_eq_some.1 hp
  exact ⟨p, hread, hsettings, htargets, forms_reread.2.1 _ _ hread⟩

end Graft

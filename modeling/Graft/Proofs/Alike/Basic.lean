import Graft.Proofs.Body.CanonicalBytes
import Mathlib.Data.List.Forall2

/-!
# Bodies that differ in identities only

Two bodies are alike if they agree but for the identities of their instructions, and all labels name instructions.

* `Operand.Alike`, `Instruction.Alike` and `Body.Alike` say so of operands, of instructions and of bodies.
* `Body.alike_of_encode_eq` says that bodies of the same bytes, with the same sources, are alike.
* The lemmas on `Instruction.Alike` say that the two instructions resolve to the same.
-/

namespace Graft

variable {b b' : Body} {i i' : Instruction} {o o' : Operand}

/-- Operands of `b` and of `b'` that are the same, or labels that name the same position. -/
inductive Operand.Alike (b b' : Body) : Operand → Operand → Prop
  | immediate (v : Value) : Alike b b' (.immediate v) (.immediate v)
  | label {t t' : InstrId} {p : Nat} (here : b.positionOf? t = some p) (there : b'.positionOf? t' = some p) :
      Alike b b' (.label t) (.label t')
  | index (n : UInt16) : Alike b b' (.index n) (.index n)
  | external (n : UInt16) : Alike b b' (.external n) (.external n)

/-- Instructions of `b` and of `b'` that differ in the identities in their labels only. -/
structure Instruction.Alike (b b' : Body) (i i' : Instruction) : Prop where
  op : i.op = i'.op
  operands : List.Forall₂ (Operand.Alike b b') i.operands i'.operands

/-- Bodies that differ in identities only, or in their revisions. -/
structure Body.Alike (b b' : Body) : Prop where
  method : b.method = b'.method
  signature : b.signature = b'.signature
  externals : b.externals = b'.externals
  instrs : List.Forall₂ (Instruction.Alike b b') b.instrs b'.instrs

/-! ### Bodies with the same bytes -/

private theorem forall₂_of_map_eq {α β γ : Type} {R : α → β → Prop} {u : α → γ} {v : β → γ} {l : List α} {l' : List β}
    (h : l.map u = l'.map v) (hR : ∀ a ∈ l, ∀ a' ∈ l', u a = v a' → R a a') : List.Forall₂ R l l' := by
  induction l generalizing l' with
  | nil =>
    obtain rfl := List.map_eq_nil_iff.1 h.symm
    exact .nil
  | cons a l ih =>
    obtain ⟨a', l', rfl, hhead, htail⟩ := List.map_eq_cons_iff.1 h.symm
    refine .cons (hR a (by simp) a' (by simp) hhead.symm) (ih htail.symm fun c hc c' hc' => ?_)
    exact hR c (by simp [hc]) c' (by simp [hc'])

theorem Operand.alike_of_resolve (h : o.resolve b = o'.resolve b') (ho : o.resolve b ≠ .position none) :
    Operand.Alike b b' o o' := by
  cases o with
  | label t =>
    cases o' with
    | label t' =>
      obtain ⟨p, hp⟩ : ∃ p, b.positionOf? t = some p := by
        cases hpos : b.positionOf? t with
        | none => exact absurd (congrArg Resolved.position hpos) ho
        | some p => exact ⟨p, rfl⟩
      have hpos : b.positionOf? t = b'.positionOf? t' := Resolved.position.inj h
      exact .label hp (hpos ▸ hp)
    | _ => cases h
  | immediate v => cases o' <;> cases h; exact .immediate v
  | index n => cases o' <;> cases h; exact .index n
  | external n => cases o' <;> cases h; exact .external n

namespace Body

private theorem externals_eq (hcontent : b.content = b'.content)
    (hsources : b.externals.map Binding.source = b'.externals.map Binding.source) : b.externals = b'.externals := by
  have hnames := (Content.mk.inj hcontent).2.2.1
  have hsources : b.externals.toList.map Binding.source = b'.externals.toList.map Binding.source := by
    simpa using congrArg Array.toList hsources
  have hrows : List.Forall₂ (fun x y : Binding => x = y) b.externals.toList b'.externals.toList := by
    refine forall₂_of_map_eq (u := fun x => ((x.name, x.type), x.source)) (v := fun x => ((x.name, x.type), x.source))
      ?_ ?_
    · have hzip := congrArg₂ List.zip hnames hsources
      simpa only [List.zip_map'] using hzip
    · rintro ⟨⟩ - ⟨⟩ - heq
      simpa [and_assoc] using heq
  rw [List.forall₂_eq_eq_eq] at hrows
  exact Array.toList_inj.1 hrows

/-- Bodies with the same bytes and the same sources are alike. -/
theorem alike_of_encode_eq {x : List UInt8} (hx : b.encode = .ok x) (hy : b'.encode = .ok x)
    (hsources : b.externals.map Binding.source = b'.externals.map Binding.source) : b.Alike b' := by
  have hcontent := content_eq_of_encode_eq hx hy
  obtain ⟨hmethod, hsignature, -, hcode⟩ := Content.mk.inj hcontent
  refine ⟨hmethod, hsignature, externals_eq hcontent hsources, forall₂_of_map_eq hcode fun i hi i' _ hsame => ?_⟩
  obtain ⟨hop, hoperands⟩ := Prod.mk.inj hsame
  refine ⟨hop, forall₂_of_map_eq hoperands fun o ho o' _ hresolve => ?_⟩
  exact Operand.alike_of_resolve hresolve (resolve_ne_of_encode hx hi ho)

end Body

/-! ### What alike instructions resolve to -/

namespace Instruction.Alike

variable (h : Instruction.Alike b b' i i')

include h

/-- All that is read of the first operand. -/
private theorem first : i.immediate? = i'.immediate? ∧ i.slot? = i'.slot? ∧ i.external? = i'.external? ∧
    b.target? i = b'.target? i' ∧ (b.target? i = none → i.label? = i'.label?) := by
  obtain ⟨op, operands⟩ := i
  obtain ⟨op', operands'⟩ := i'
  obtain ⟨-, hoperands⟩ := h
  cases hoperands with
  | nil => exact ⟨rfl, rfl, rfl, rfl, fun _ => rfl⟩
  | cons hfirst _ =>
    cases hfirst with
    | label here there =>
      refine ⟨rfl, rfl, rfl, here.trans there.symm, fun hnone => ?_⟩
      cases here.symm.trans hnone
    | _ => exact ⟨rfl, rfl, rfl, rfl, fun _ => rfl⟩

theorem immediate? : i.immediate? = i'.immediate? := h.first.1

theorem slot? : i.slot? = i'.slot? := h.first.2.1

theorem external? : i.external? = i'.external? := h.first.2.2.1

theorem target? : b.target? i = b'.target? i' := h.first.2.2.2.1

theorem label? (hnone : b.target? i = none) : i.label? = i'.label? := h.first.2.2.2.2 hnone

theorem binding? (hexternals : b.externals = b'.externals) : b.binding? i = b'.binding? i' := by
  rw [Body.binding?, Body.binding?, h.external?, hexternals]

theorem hasShape : i.hasShape = i'.hasShape := by
  obtain ⟨op, operands⟩ := i
  obtain ⟨op', operands'⟩ := i'
  obtain ⟨rfl, hoperands⟩ := h
  cases hoperands with
  | nil => rfl
  | cons hfirst hrest => cases hrest <;> cases hfirst <;> cases op <;> rfl

end Instruction.Alike

end Graft

import Graft.Proofs.Plan.Patched

/-!
# Revisions do not matter

Neither verification nor the bytes of a body depend on the revision that the body is a copy of, and edits neither ask for
it nor change it.

* `Body.asOf` is the body as a copy of another revision.
* `Body.verify_asOf` says that verification finds the same.
* `applyAll_asOf` says that rules do the same.
-/

namespace Graft

/-- The body as a copy of another revision, or of none. -/
def Body.asOf (b : Body) (r : Option Nat) : Body := { b with revision := r }

variable {b : Body} {r : Option Nat}

@[simp] theorem Body.method_asOf (b : Body) (r : Option Nat) : (b.asOf r).method = b.method := rfl

@[simp] theorem Body.digestText_asOf (b : Body) (r : Option Nat) : (b.asOf r).digestText = b.digestText := rfl

/-! ### Checks -/

section Checks

open Typing

private theorem through_asOf (pos : Nat) (is : List Instruction) (s : Stack) :
    through (b.asOf r) pos is s = through b pos is s := by
  induction is generalizing pos s with
  | nil => rfl
  | cons i is ih =>
    have hnext : next (b.asOf r) i s = next b i s := rfl
    simp only [through, hnext, ih]

private theorem visit_asOf (k : Block) (f : Flow) : Flow.visit (b.asOf r) k f = Flow.visit b k f := by
  have hcode : k.code (b.asOf r) = k.code b := rfl
  have hsuccessors : k.successors (b.asOf r) = k.successors b := rfl
  rw [Flow.visit, Flow.visit, through_asOf, hcode, hsuccessors]

private theorem drain_asOf (ks : List Block) (n : Nat) (f : Flow) :
    Flow.drain (b.asOf r) ks n f = Flow.drain b ks n f := by
  induction n generalizing f with
  | zero => rfl
  | succ n ih => simp only [Flow.drain, visit_asOf, ih]

/-- Verification does not depend on the revision. -/
theorem Body.verify_asOf (b : Body) (r : Option Nat) : (b.asOf r).verify = b.verify := by
  have hoperands : operandFindings (b.asOf r) = operandFindings b := rfl
  have hblocks : blocks (b.asOf r) = blocks b := rfl
  have hfallOff : fallOffFindings (b.asOf r) = fallOffFindings b := rfl
  have hflow : flowFindings (b.asOf r) = flowFindings b := by
    simp only [flowFindings, hblocks, hfallOff, drain_asOf]
  have hfindings : (b.asOf r).findings = b.findings := by
    rw [Body.findings, Body.findings, hoperands, hflow]
    rfl
  rw [Body.verify, Body.verify, Body.violations, Body.violations, hfindings, Body.method_asOf]

end Checks

/-! ### Edits -/

private theorem Body.erase_asOf (p : Nat) :
    (b.asOf r).erase p = (b.erase p).map fun (e, rest) => (e, rest.asOf r) := by
  unfold Body.erase
  cases he : b.entries[p]? with
  | none => simp only [Body.asOf, he]; rfl
  | some e => simp only [Body.asOf, he]; rfl

private theorem Body.insert_asOf (p : Nat) (i : Instruction) :
    (b.asOf r).insert p i = (b.insert p i).map fun b' => b'.asOf r := by
  have hlength : (b.asOf r).length = b.length := rfl
  unfold Body.insert
  rw [hlength]
  split <;> rfl

private theorem Body.bind_asOf (x : Binding) :
    (b.asOf r).bind x = (b.bind x).map fun (n, b') => (n, b'.asOf r) := by
  have hexternals : (b.asOf r).externals = b.externals := rfl
  unfold Body.bind
  rw [hexternals]
  dsimp only
  split <;> rfl

namespace Cursor

/-- The cursor in the body as a copy of another revision. -/
def asOf (c : Cursor) (r : Option Nat) : Cursor := { c with body := c.body.asOf r }

variable {c : Cursor}

private theorem remove_asOf : (c.asOf r).remove = c.remove.map fun (i, c') => (i, c'.asOf r) := by
  have hplace : (c.asOf r).place = c.place := rfl
  have hbody : (c.asOf r).body = c.body.asOf r := rfl
  unfold remove
  rw [hplace, hbody]
  split
  · rename_i p _
    rw [Body.erase_asOf]
    cases c.body.erase p with
    | error e => rfl
    | ok removed =>
      obtain ⟨removed, rest⟩ := removed
      have hid : (rest.asOf r).id? p = rest.id? p := rfl
      simp only [Except.map, hid]
      split <;> rfl
  · rfl

private theorem insert_asOf (i : Instruction) : (c.asOf r).insert i = (c.insert i).map fun (t, c') => (t, c'.asOf r) := by
  have hpoint : (c.asOf r).insertionPoint = c.insertionPoint := rfl
  have hremoval : (c.asOf r).removal = c.removal := rfl
  have hinsert : (c.asOf r).body.insert c.insertionPoint i =
      (c.body.insert c.insertionPoint i).map fun b' => b'.asOf r := Body.insert_asOf ..
  unfold insert
  dsimp only
  rw [hpoint, hremoval, hinsert]
  cases c.body.insert c.insertionPoint i with
  | error e => rfl
  | ok b' => cases c.removal <;> rfl

private theorem insertCall_asOf (x : Binding) :
    (c.asOf r).insertCall x = (c.insertCall x).map fun (n, c') => (n, c'.asOf r) := by
  have hbound : insertCall.bound (c.asOf r) x = (insertCall.bound c x).map fun (n, c') => (n, c'.asOf r) := by
    have hbind : (c.asOf r).body.bind x = (c.body.bind x).map fun (n, b') => (n, b'.asOf r) := Body.bind_asOf x
    unfold insertCall.bound
    rw [hbind]
    cases c.body.bind x with
    | error e => rfl
    | ok bound =>
      obtain ⟨row, b'⟩ := bound
      have hinsert : ({ c.asOf r with body := b'.asOf r } : Cursor).insert ⟨.call, [.external row]⟩ =
          (({ c with body := b' } : Cursor).insert ⟨.call, [.external row]⟩).map fun (t, c') => (t, c'.asOf r) :=
        insert_asOf (c := { c with body := b' }) ⟨.call, [.external row]⟩
      simp only [Except.map, hinsert]
      cases ({ c with body := b' } : Cursor).insert ⟨.call, [.external row]⟩ <;> rfl
  have hremoval : (c.asOf r).removal = c.removal := rfl
  unfold insertCall
  rw [hremoval, hbound]
  split
  · split <;> rfl
  · rfl

theorem replaceCurrent_asOf (x : Binding) :
    (c.asOf r).replaceCurrent x = ((c.replaceCurrent x).1, (c.replaceCurrent x).2.asOf r) := by
  unfold replaceCurrent
  rw [remove_asOf]
  cases c.remove with
  | error e => rfl
  | ok removed =>
    obtain ⟨i, c₁⟩ := removed
    have hcall := insertCall_asOf (c := c₁) (r := r) x
    simp only [Except.map, hcall]
    cases c₁.insertCall x <;> rfl

end Cursor

namespace BoundRule

private theorem replace_asOf (c : Cursor) (id : InstrId) (x : Binding) :
    replace (c.asOf r) id x = (replace c id x).map fun c' => c'.asOf r := by
  have hseek : ((c.asOf r).body.positionOf? id).bind (c.asOf r).seekTo? =
      ((c.body.positionOf? id).bind c.seekTo?).map fun c' => c'.asOf r := by
    have hposition : (c.asOf r).body.positionOf? id = c.body.positionOf? id := rfl
    rw [hposition]
    cases c.body.positionOf? id with
    | none => rfl
    | some p =>
      have hlength : (c.asOf r).body.length = c.body.length := rfl
      simp only [Option.bind_some, Cursor.seekTo?, hlength]
      split <;> rfl
  unfold replace
  rw [hseek]
  cases (c.body.positionOf? id).bind c.seekTo? with
  | none => rfl
  | some c' =>
    simp only [Option.map_some, Cursor.replaceCurrent_asOf]
    split
    · rename_i hreplace
      obtain ⟨hresult, rfl⟩ := Prod.mk.inj hreplace
      rcases hdone : c'.replaceCurrent x with ⟨result, c''⟩
      rw [hdone] at hresult
      obtain rfl : result = _ := hresult
      rfl
    · rename_i hreplace
      obtain ⟨hresult, rfl⟩ := Prod.mk.inj hreplace
      rcases hdone : c'.replaceCurrent x with ⟨result, c''⟩
      rw [hdone] at hresult
      obtain rfl : result = _ := hresult
      rfl

private theorem selectAll_asOf (claimed : List InstrId) (rs : List BoundRule) :
    selectAll (b.asOf r) claimed rs = selectAll b claimed rs := by
  have hselect (rule : BoundRule) : rule.select? (b.asOf r) = rule.select? b := by
    rw [select?_eq, select?_eq]
    rfl
  induction rs generalizing claimed with
  | nil => rfl
  | cons rule rs ih => simp only [selectAll, hselect, ih]

/-- Rules do the same to a copy of another revision. -/
theorem applyAll_asOf (rs : List BoundRule) (b : Body) (r : Option Nat) :
    applyAll rs (b.asOf r) = (applyAll rs b).map fun b' => b'.asOf r := by
  have hreplacements (l : List (InstrId × Binding)) (c : Cursor) :
      l.foldlM (fun c s => replace c s.1 s.2) (c.asOf r) =
        (l.foldlM (fun c s => replace c s.1 s.2) c).map fun c' => c'.asOf r := by
    induction l generalizing c with
    | nil => rfl
    | cons s l ih =>
      rw [List.foldlM_cons, List.foldlM_cons, replace_asOf]
      cases replace c s.1 s.2 with
      | error e => rfl
      | ok c' => exact ih c'
  have hedited (b : Body) : applyAll rs b = selectAll b [] rs >>= fun l =>
      (l.foldlM (fun c s => replace c s.1 s.2) ({ body := b } : Cursor)).map Cursor.body := by
    unfold applyAll
    refine congrArg _ (funext fun l => ?_)
    cases l.foldlM (fun c s => replace c s.1 s.2) ({ body := b } : Cursor) <;> rfl
  rw [hedited, hedited, selectAll_asOf]
  cases selectAll b [] rs with
  | error e => rfl
  | ok l =>
    have hl := hreplacements l { body := b }
    show (l.foldlM (fun c s => replace c s.1 s.2) (({ body := b } : Cursor).asOf r)).map Cursor.body =
      ((l.foldlM (fun c s => replace c s.1 s.2) ({ body := b } : Cursor)).map Cursor.body).map fun b' => b'.asOf r
    rw [hl]
    cases l.foldlM (fun c s => replace c s.1 s.2) ({ body := b } : Cursor) <;> rfl

end BoundRule

end Graft

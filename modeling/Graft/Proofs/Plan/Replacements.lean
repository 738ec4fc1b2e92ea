import Graft.Proofs.Cursor.Replacement
import Graft.Proofs.Plan.Selection
import Graft.Proofs.Typing.Exactness
import Graft.Proofs.Typing.Substitution

/-!
# Replacements by rules

The rules of a patch replace their instructions one after the other. Each check is made in the body as it then is, but
what is known of the instructions to come does not change in between, so that the outcome can be told from the body
before all of them.

* `replace_spec` gives the outcome of one replacement, and `replaceAll_spec` of a list of them.
* `applyAll_spec` says that a body stays well typed under the rules of a patch, and why rules fail.
-/

namespace Graft.BoundRule

open Typing

variable {b b' : Body} {c : Cursor} {e : Entry} {x : Binding} {p : Nat} {l : List (InstrId × Binding)} {err : PatchError}

/-! ### One replacement -/

/-- The instruction is looked up by its identity, and the outcome is that of the replacement at the cursor. -/
private theorem replace_eq (hb : c.body.Numbered) (hp : c.body.entries[p]? = some e) (x : Binding) :
    replace c e.id x = ((c.moveTo (.on p)).replaceCurrent x).1.map fun _ =>
      ((c.moveTo (.on p)).replaceCurrent x).2 := by
  have hposition : c.body.positionOf? e.id = some p := by
    rw [Body.positionOf?_eq_some_iff hb, Body.id?, hp, Option.map_some]
  have hseek : c.seekTo? p = some (c.moveTo (.on p)) := if_pos (List.getElem?_eq_some_iff.1 hp).1
  unfold replace
  split
  · rename_i hnone
    rw [hposition, Option.bind_some, hseek] at hnone
    cases hnone
  · rename_i hsome
    rw [hposition, Option.bind_some, hseek] at hsome
    obtain rfl := Option.some.inj hsome
    split
    all_goals
      rename_i hreplaced
      rw [hreplaced]
      rfl

private theorem replace_eq_error (hb : c.body.Numbered) (hp : c.body.entries[p]? = some e)
    (h : ((c.moveTo (.on p)).replaceCurrent x).1 = .error err) : replace c e.id x = .error err := by
  rw [replace_eq hb hp, h]
  rfl

/-- The instruction gives way to the call if it has the effect of the call and the table of external values has room. -/
theorem replace_spec (hb : c.body.Numbered) (hw : WellTyped c.body) (he : e ∈ c.body.entries) (x : Binding) :
    (c.body.effect? e.instr ≠ some ⟨0, 1, some x.type⟩ ∧
      replace c e.id x = .error (.effectMismatch (c.body.effect? e.instr) x.type)) ∨
    (Body.maxExternals ≤ c.body.externals.size ∧ replace c e.id x = .error (.body .tooManyExternals)) ∨
    ∃ p, c.body.entries[p]? = some e ∧ c.body.effect? e.instr = some ⟨0, 1, some x.type⟩ ∧
      c.body.externals.size < Body.maxExternals ∧
      replace c e.id x = .ok { body := c.body.withCall p e.id x, place := .on p } := by
  obtain ⟨p, hp⟩ := List.mem_iff_getElem?.1 he
  have hsimple : c.body.Simple := fun e' he' => (hw.fits _ (List.mem_map_of_mem he')).length_operands
  by_cases heffect : c.body.effect? e.instr = some ⟨0, 1, some x.type⟩
  · by_cases hroom : c.body.externals.size < Body.maxExternals
    · have hdone := Cursor.replaceCurrent_eq (c := c.moveTo (.on p)) hb hsimple rfl hp heffect hroom
      refine .inr (.inr ⟨p, hp, heffect, hroom, ?_⟩)
      rw [replace_eq hb hp, hdone]
      rfl
    · have hfull := Nat.le_of_not_lt hroom
      refine .inr (.inl ⟨hfull, replace_eq_error hb hp ?_⟩)
      exact Cursor.replaceCurrent_of_full (c := c.moveTo (.on p)) hb hsimple rfl hp heffect hfull
  · refine .inl ⟨heffect, replace_eq_error hb hp ?_⟩
    exact Cursor.replaceCurrent_of_mismatch (c := c.moveTo (.on p)) hb hsimple rfl hp heffect

/-! ### Replacements one after the other -/

/-- Why replacements in a body fail: the effect of an instruction is not that of its call, or the calls do not fit the
table of external values. -/
inductive ReplacementFailure (b : Body) (l : List (InstrId × Binding)) : PatchError → Prop
  | mismatch {e : Entry} {x : Binding} (here : e ∈ b.entries) (selected : (e.id, x) ∈ l)
      (differs : b.effect? e.instr ≠ some ⟨0, 1, some x.type⟩) :
      ReplacementFailure b l (.effectMismatch (b.effect? e.instr) x.type)
  | full (crowded : Body.maxExternals < b.externals.size + l.length) :
      ReplacementFailure b l (.body .tooManyExternals)

/-- What fails behind a replacement would have failed without it. -/
private theorem ReplacementFailure.before (hb : b.Numbered) (hw : WellTyped b) (he : b.entries[p]? = some e)
    (hmem : ∀ s ∈ l, s.1 ∈ b.entries.map Entry.id) (h : ReplacementFailure (b.withCall p e.id x) l err) :
    ReplacementFailure b ((e.id, x) :: l) err := by
  cases h with
  | @mismatch e' y here selected differs =>
    have hold : e'.id ∈ b.entries.map Entry.id := hmem _ selected
    rcases Body.mem_entries_substitute here with hfresh | ⟨e₀, he₀, rfl⟩
    · rw [hfresh] at hold
      exact absurd hold hb.freshId_not_mem
    · rw [effect?_withCall hb he (hw.fits _ (List.mem_map_of_mem he₀))] at differs ⊢
      exact .mismatch he₀ (List.mem_cons_of_mem _ selected) differs
  | full crowded =>
    have hsize : (b.withCall p e.id x).externals.size = b.externals.size + 1 := Array.size_push ..
    refine .full ?_
    rw [List.length_cons]
    omega

/-- Replacements in a well typed body leave it well typed and add their external values, or fail for one of two
reasons. -/
theorem replaceAll_spec (hb : c.body.Numbered) (hw : WellTyped c.body) (hnodup : (l.map Prod.fst).Nodup)
    (hmem : ∀ s ∈ l, s.1 ∈ c.body.entries.map Entry.id) :
    (∃ c', l.foldlM (fun c s => replace c s.1 s.2) c = .ok c' ∧ c'.body.Numbered ∧ WellTyped c'.body ∧
      ∀ x ∈ c'.body.externals, x ∈ c.body.externals ∨ x ∈ l.map Prod.snd) ∨
    ∃ err, l.foldlM (fun c s => replace c s.1 s.2) c = .error err ∧ ReplacementFailure c.body l err := by
  induction l generalizing c with
  | nil => exact .inl ⟨c, rfl, hb, hw, fun x hx => .inl hx⟩
  | cons s l ih =>
    obtain ⟨id, x⟩ := s
    obtain ⟨e, he, rfl⟩ := List.mem_map.1 (hmem (id, x) List.mem_cons_self)
    obtain ⟨hnot, hrest⟩ := List.nodup_cons.1 hnodup
    rw [List.foldlM_cons]
    rcases replace_spec hb hw he x with ⟨hdiffers, herr⟩ | ⟨hfull, herr⟩ | ⟨p, hp, heffect, hroom, hok⟩
    · rw [herr]
      exact .inr ⟨_, rfl, .mismatch he List.mem_cons_self hdiffers⟩
    · rw [herr]
      refine .inr ⟨_, rfl, .full ?_⟩
      rw [List.length_cons]
      omega
    · rw [hok]
      -- the instructions to come are still there, since they are others than the replaced one
      have hmem' : ∀ s ∈ l, s.1 ∈ (c.body.withCall p e.id x).entries.map Entry.id := by
        intro s hs
        have hne : s.1 ≠ e.id := by
          intro heq
          exact hnot (List.mem_map.2 ⟨s, hs, heq⟩)
        exact Body.mem_ids_substitute hp (hmem s (List.mem_cons_of_mem _ hs)) hne
      have hih := ih (c := { body := c.body.withCall p e.id x, place := .on p })
        (hb.withCall ..) (hw.withCall hb hp heffect hroom) hrest hmem'
      rcases hih with ⟨c', hdone, hnumbered, htyped, hexternals⟩ | ⟨err, herr, hfailure⟩
      · refine .inl ⟨c', hdone, hnumbered, htyped, fun y hy => ?_⟩
        rw [List.map_cons, List.mem_cons]
        rcases hexternals y hy with hold | hlater
        · exact (Array.mem_push.1 hold).imp id .inl
        · exact .inr (.inr hlater)
      · refine .inr ⟨err, herr, ?_⟩
        exact hfailure.before hb hw hp fun s hs => hmem s (List.mem_cons_of_mem _ hs)

/-! ### Rules -/

/-- Why the rules of a patch fail on a body. -/
inductive Failure (b : Body) (rs : List BoundRule) : PatchError → Prop
  /-- The occurrence that a rule asks for is missing. -/
  | missing {r : BoundRule} (rule : r ∈ rs) (absent : r.Missing b) : Failure b rs .noCurrentInstruction
  /-- Two rules select the same instruction. -/
  | claimed {key : String} (clash : Clash b rs key) : Failure b rs (.plan (.claimedTwice key))
  /-- A rule selects an instruction without the effect of its setting. -/
  | mismatch {r : BoundRule} {e : Entry} (rule : r ∈ rs) (here : e ∈ b.entries) (selected : r.select? b = some e.id)
      (differs : b.effect? e.instr ≠ some ⟨0, 1, some r.binding.type⟩) :
      Failure b rs (.effectMismatch (b.effect? e.instr) r.binding.type)
  /-- There are more rules than the table of external values has room for. -/
  | full (crowded : Body.maxExternals < b.externals.size + rs.length) : Failure b rs (.body .tooManyExternals)

/-- The rules of a patch leave a well typed body well typed and add their settings, or fail for one of the four
reasons. -/
theorem applyAll_spec (hb : b.Numbered) (hw : WellTyped b) (rs : List BoundRule) :
    (∃ b', applyAll rs b = .ok b' ∧ b'.Numbered ∧ WellTyped b' ∧
      ∀ x ∈ b'.externals, x ∈ b.externals ∨ x ∈ rs.map BoundRule.binding) ∨
    ∃ err, applyAll rs b = .error err ∧ Failure b rs err := by
  unfold applyAll
  cases hselected : selectAll b [] rs with
  | error err =>
    refine .inr ⟨err, rfl, ?_⟩
    rcases selectAll_error hselected with ⟨rfl, r, hr, hmissing⟩ | ⟨key, rfl, hclash⟩
    · exact .missing hr hmissing
    · exact .claimed hclash
  | ok l =>
    obtain ⟨hnodup, hrules⟩ := selectAll_ok hselected
    have hmem (s : InstrId × Binding) (hs : s ∈ l) : s.1 ∈ b.entries.map Entry.id := by
      obtain ⟨r, -, hselect, -⟩ := hrules s hs
      exact mem_of_select? hselect
    rcases replaceAll_spec (c := { body := b }) hb hw hnodup hmem with
      ⟨c, hc, hnumbered, htyped, hexternals⟩ | ⟨err, herr, hfail⟩
    · refine .inl ⟨c.body, bind_eq_ok.2 ⟨l, rfl, bind_eq_ok.2 ⟨c, hc, rfl⟩⟩, hnumbered, htyped, fun x hx => ?_⟩
      refine (hexternals x hx).imp id fun hnew => ?_
      obtain ⟨s, hs, rfl⟩ := List.mem_map.1 hnew
      obtain ⟨r, hr, -, hbinding⟩ := hrules s hs
      exact List.mem_map.2 ⟨r, hr, hbinding⟩
    · refine .inr ⟨err, ?_, ?_⟩
      · show (l.foldlM (fun c s => replace c s.1 s.2) ({ body := b } : Cursor) >>= fun c => pure c.body) = _
        rw [herr]
        rfl
      · cases hfail with
        | mismatch here selected differs =>
          obtain ⟨r, hr, hselect, rfl⟩ := hrules _ selected
          exact .mismatch hr here hselect differs
        | full crowded => exact .full (length_of_selectAll hselected ▸ crowded)

end Graft.BoundRule

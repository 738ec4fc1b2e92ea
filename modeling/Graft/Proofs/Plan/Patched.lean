import Graft.Proofs.Plan.Calls

/-!
# What the rules of a patch make of a body

All rules select their positions in the body as it was, so that it does not matter for a selection what other rules replace.

* `place?` is the position that a rule selects, said without cursors (`select?_eq`).
* `exists_applyAll_iff` and `calls_of_applyAll` say when rules succeed and what they do then, in terms of selections.
* `applyAll_patched` says the same in terms of positions.
-/

namespace Graft.BoundRule

open Typing

variable {b b' : Body} {r r' : BoundRule} {rs : List BoundRule} {l : List (InstrId × Binding)}
  {p : Nat}

/-! ### Positions that rules select -/

/-- The position of the occurrence that a rule asks for, counted from 1 among the instructions that its pattern accepts. -/
def place? (b : Body) (r : BoundRule) : Option Nat :=
  match r.rule.occurrence with
  | 0 => none
  | n + 1 => (b.instrs.findIdxs fun i => r.rule.pattern.accepts i)[n]?

/-- The place of an element among those that pass a test is the number of those before it. -/
private theorem findIdxs_getElem? {α : Type} {q : α → Bool} {l : List α} {a : α} (ha : l[p]? = some a)
    (hq : q a = true) : (l.findIdxs q)[(l.take p).countP q]? = some p := by
  obtain ⟨hp, rfl⟩ := List.getElem?_eq_some_iff.1 ha
  have hsplit : l = l.take p ++ l[p] :: l.drop (p + 1) := by
    rw [← List.drop_eq_getElem_cons hp, List.take_append_drop]
  have hlength : (l.take p).length = p := by
    rw [List.length_take]
    omega
  have hidxs : l.findIdxs q = (l.take p).findIdxs q ++ p :: (l.drop (p + 1)).findIdxs q (p + 1) := by
    conv => lhs; rw [hsplit]
    rw [List.findIdxs_append, List.findIdxs_cons, if_pos hq, hlength, Nat.zero_add]
  rw [hidxs, List.getElem?_append_right (Nat.le_of_eq List.length_findIdxs), List.length_findIdxs, Nat.sub_self]
  rfl

/-- The cursor finds the instruction at this position. -/
theorem select?_eq (b : Body) (r : BoundRule) : r.select? b = (r.place? b).bind b.id? := by
  unfold place?
  rcases select?_spec b r with ⟨p, e, hselect, he, haccepts, hcount⟩ | ⟨hnone, hmissing⟩
  · have hi : b.instrs[p]? = some e.instr := by rw [Body.instrs_getElem?, Body.instr?, he, Option.map_some]
    rw [hselect, ← hcount]
    dsimp only
    rw [findIdxs_getElem? hi haccepts, Option.bind_some, Body.id?, he, Option.map_some]
  · rw [hnone]
    rcases hmissing with hzero | hfew
    · rw [hzero]
      rfl
    · split
      · rfl
      · rename_i n hn
        rw [matching, hn] at hfew
        rw [List.getElem?_eq_none (by rw [List.length_findIdxs]; omega), Option.bind_none]

theorem lt_length_of_place? (h : r.place? b = some p) : p < b.length := by
  unfold place? at h
  split at h
  · cases h
  · obtain ⟨hp, -⟩ := List.mem_findIdxs_iff_exists_getElem_pos.1 (List.mem_of_getElem? h)
    rwa [Body.length_instrs] at hp

/-- Among instructions that are selected, those at different positions have different identities. -/
private theorem select?_eq_iff (hb : b.Numbered) (h : r.place? b = some p) :
    r'.select? b = r.select? b ↔ r'.place? b = r.place? b := by
  rw [select?_eq, select?_eq, h, Option.bind_some]
  constructor
  · intro hsame
    have hp : p < b.entries.length := lt_length_of_place? h
    have hid : b.id? p = some b.entries[p].id := by rw [Body.id?, List.getElem?_eq_getElem hp, Option.map_some]
    rw [hid] at hsame
    obtain ⟨q, hq, hid'⟩ := Option.bind_eq_some_iff.1 hsame
    rw [hq, hb.eq_of_id? hid' hid]
  · intro hsame
    rw [hsame, Option.bind_some]

/-! ### Bodies after their selections -/

private theorem mem_ids_of_selectAll (h : selectAll b [] rs = .ok l) :
    ∀ id ∈ l.map Prod.fst, id ∈ b.entries.map Entry.id := by
  intro id hid
  obtain ⟨s, hs, rfl⟩ := List.mem_map.1 hid
  obtain ⟨r, -, hselect, -⟩ := (selectAll_ok h).2 s hs
  exact mem_of_select? hselect

/-- Rules succeed exactly if their selections do and can give way to the calls. -/
theorem exists_applyAll_iff (hb : b.Numbered) (hw : WellTyped b) :
    (∃ b', applyAll rs b = .ok b') ↔ ∃ l, selectAll b [] rs = .ok l ∧ Admits b l := by
  constructor
  · rintro ⟨b', h⟩
    obtain ⟨l, hl, h⟩ := bind_eq_ok.1 h
    obtain ⟨c, hc, -⟩ := bind_eq_ok.1 h
    refine ⟨l, hl, ?_⟩
    rcases replaceAll_calls (c := { body := b }) hb hw (selectAll_ok hl).1 (mem_ids_of_selectAll hl) with
      ⟨hadmits, -⟩ | ⟨-, err, herr⟩
    · exact hadmits
    · rw [herr] at hc
      cases hc
  · rintro ⟨l, hl, hadmits⟩
    rcases replaceAll_calls (c := { body := b }) hb hw (selectAll_ok hl).1 (mem_ids_of_selectAll hl) with
      ⟨-, c, hc, -⟩ | ⟨hnot, -⟩
    · exact ⟨c.body, bind_eq_ok.2 ⟨l, hl, bind_eq_ok.2 ⟨c, hc, rfl⟩⟩⟩
    · exact absurd hadmits hnot

/-- Rules that succeed put calls in place of their selections. -/
theorem calls_of_applyAll (hb : b.Numbered) (hw : WellTyped b) (h : applyAll rs b = .ok b') :
    ∃ l, selectAll b [] rs = .ok l ∧ b.Calls l b' := by
  obtain ⟨l, hl, h⟩ := bind_eq_ok.1 h
  obtain ⟨c, hc, h⟩ := bind_eq_ok.1 h
  obtain rfl := Except.ok.inj h
  refine ⟨l, hl, ?_⟩
  rcases replaceAll_calls (c := { body := b }) hb hw (selectAll_ok hl).1 (mem_ids_of_selectAll hl) with
    ⟨-, c', hc', -, hcalls⟩ | ⟨-, err, herr⟩
  · obtain rfl := Except.ok.inj (hc.symm.trans hc')
    exact hcalls
  · rw [herr] at hc
    cases hc

/-! ### Patched bodies -/

/-- What rules ask of a body: each finds its position, no two the same one, the instruction there has the effect of the
call that is to replace it, and the table of external values has room. -/
structure Applicable (b : Body) (rs : List BoundRule) : Prop where
  suits : ∀ r ∈ rs, ∃ p i, r.place? b = some p ∧ b.instr? p = some i ∧ b.effect? i = some ⟨0, 1, some r.binding.type⟩
  distinct : (rs.map (place? b)).Nodup
  room : b.externals.size + rs.length ≤ Body.maxExternals

/-- The body `b'` is `b` with calls of their settings at the positions that the rules select. -/
structure Patched (b : Body) (rs : List BoundRule) (b' : Body) : Prop where
  length : b'.length = b.length
  externals : b'.externals = b.externals ++ (rs.map BoundRule.binding).toArray
  call : ∀ {j p : Nat} {r : BoundRule}, rs[j]? = some r → r.place? b = some p → ∃ n : UInt16,
    n.toNat = b.externals.size + j ∧ b'.instr? p = some ⟨.call, [.external n]⟩ ∧
      b'.externals[n.toNat]? = some r.binding
  other : ∀ {p : Nat} {i : Instruction}, b.instr? p = some i → (∀ r ∈ rs, r.place? b ≠ some p) →
    ∃ i', b'.instr? p = some i' ∧ Instruction.Alike b b' i i'

private theorem nodup_select?_iff (hb : b.Numbered) (hplaces : ∀ r ∈ rs, ∃ p, r.place? b = some p) :
    (rs.map (select? b)).Nodup ↔ (rs.map (place? b)).Nodup := by
  rw [List.Nodup, List.Nodup, List.pairwise_map, List.pairwise_map]
  refine List.Pairwise.iff_of_mem fun {r r'} _ hr' => ?_
  obtain ⟨p, hp⟩ := hplaces r' hr'
  exact not_congr (select?_eq_iff hb hp)

/-- The instruction that a rule selects, by its identity and by its position. -/
private theorem suits_iff (hb : b.Numbered) {id : InstrId} (hselect : r.select? b = some id) {x : Binding} :
    Suits b id x ↔ ∃ p i, r.place? b = some p ∧ b.instr? p = some i ∧ b.effect? i = some ⟨0, 1, some x.type⟩ := by
  rw [select?_eq] at hselect
  obtain ⟨p, hp, hid⟩ := Option.bind_eq_some_iff.1 hselect
  obtain ⟨e, he, rfl⟩ := Option.map_eq_some_iff.1 hid
  constructor
  · rintro ⟨e', he', hid', heffect⟩
    obtain rfl := hb.ext he' (List.mem_of_getElem? he) hid'
    exact ⟨p, e'.instr, hp, by rw [Body.instr?, he, Option.map_some], heffect⟩
  · rintro ⟨q, i, hq, hi, heffect⟩
    obtain rfl := Option.some.inj (hp.symm.trans hq)
    rw [Body.instr?, he, Option.map_some] at hi
    obtain rfl := Option.some.inj hi
    exact ⟨e, List.mem_of_getElem? he, rfl, heffect⟩

private theorem map_select? (hrules : List.Forall₂ (fun r s => r.select? b = some s.1 ∧ r.binding = s.2) rs l) :
    rs.map (select? b) = (l.map Prod.fst).map some := by
  induction hrules with
  | nil => rfl
  | cons hrule _ ih => rw [List.map_cons, List.map_cons, List.map_cons, hrule.1, ih]

private theorem map_binding (hrules : List.Forall₂ (fun r s => r.select? b = some s.1 ∧ r.binding = s.2) rs l) :
    rs.map BoundRule.binding = l.map Prod.snd := by
  induction hrules with
  | nil => rfl
  | cons hrule _ ih => rw [List.map_cons, List.map_cons, hrule.2, ih]

/-- What rules ask of a body, in terms of positions and in terms of selections. -/
private theorem applicable_iff (hb : b.Numbered) (hfew : b.externals.size ≤ Body.maxExternals) :
    Applicable b rs ↔ ∃ l, selectAll b [] rs = .ok l ∧ Admits b l := by
  constructor
  · rintro ⟨hsuits, hdistinct, hroom⟩
    have hplaces (r : BoundRule) (hr : r ∈ rs) : ∃ p, r.place? b = some p := by
      obtain ⟨p, i, hp, -⟩ := hsuits r hr
      exact ⟨p, hp⟩
    obtain ⟨l, hl⟩ : ∃ l, List.Forall₂ (fun r (s : InstrId × Binding) =>
        r.select? b = some s.1 ∧ r.binding = s.2) rs l := by
      refine exists_forall₂ fun r hr => ?_
      obtain ⟨p, i, hp, hi, -⟩ := hsuits r hr
      obtain ⟨e, he, -⟩ := Option.map_eq_some_iff.1 hi
      refine ⟨(e.id, r.binding), ?_, rfl⟩
      rw [select?_eq, hp, Option.bind_some, Body.id?, he, Option.map_some]
    have hnodup : (l.map Prod.fst).Nodup := by
      refine List.Nodup.of_map some ?_
      rwa [← map_select? hl, nodup_select?_iff hb hplaces]
    have hselected := selectAll_eq_ok_iff.2 ⟨hl, hnodup, fun id _ => List.not_mem_nil⟩
    refine ⟨l, hselected, fun s hs => ?_, fun _ => hl.length_eq ▸ hroom⟩
    obtain ⟨r, hr, hselect, hbinding⟩ := (selectAll_ok hselected).2 s hs
    rw [suits_iff hb hselect, ← hbinding]
    exact hsuits r hr
  · rintro ⟨l, hselected, hadmits⟩
    obtain ⟨hl, hnodup, -⟩ := selectAll_eq_ok_iff.1 hselected
    have hsuits (r : BoundRule) (hr : r ∈ rs) :
        ∃ p i, r.place? b = some p ∧ b.instr? p = some i ∧ b.effect? i = some ⟨0, 1, some r.binding.type⟩ := by
      obtain ⟨s, hs, hselect, hbinding⟩ := exists_of_mem_left hl hr
      rw [hbinding]
      exact (suits_iff hb hselect).1 (hadmits.suits s hs)
    refine ⟨hsuits, ?_, ?_⟩
    · rw [← nodup_select?_iff hb, map_select? hl]
      · exact hnodup.map fun id id' hsame => Option.some.inj hsame
      · intro r hr
        obtain ⟨p, i, hp, -⟩ := hsuits r hr
        exact ⟨p, hp⟩
    · rw [hl.length_eq]
      by_cases hnil : l = []
      · rw [hnil]
        exact hfew
      · exact hadmits.room hnil

theorem patched_of_applyAll (hb : b.Numbered) (hw : WellTyped b) (h : applyAll rs b = .ok b') : Patched b rs b' := by
  obtain ⟨l, hselected, hcalls⟩ := calls_of_applyAll hb hw h
  obtain ⟨hl, hnodup, -⟩ := selectAll_eq_ok_iff.1 hselected
  constructor
  · exact hcalls.length
  · rw [hcalls.externals, map_binding hl]
  · intro j p r hr hp
    obtain ⟨hj, rfl⟩ := List.getElem?_eq_some_iff.1 hr
    have hj' : j < l.length := hl.length_eq ▸ hj
    obtain ⟨hselect, hbinding⟩ := (List.forall₂_iff_get.1 hl).2 j hj hj'
    rw [List.get_eq_getElem, List.get_eq_getElem] at hselect hbinding
    have hs : l[j]? = some (l[j].1, l[j].2) := List.getElem?_eq_getElem hj'
    rw [select?_eq, hp, Option.bind_some] at hselect
    obtain ⟨n, hn, hcall⟩ := hcalls.call hs hselect
    exact ⟨n, hn, hcall, by rw [hcalls.binding hs hn, hbinding]⟩
  · intro p i hi hnot
    obtain ⟨e, he, rfl⟩ := Option.map_eq_some_iff.1 hi
    have hnew : e.id ∉ l.map Prod.fst := by
      intro hmem
      obtain ⟨s, hs, hid⟩ := List.mem_map.1 hmem
      obtain ⟨r, hr, hselect, -⟩ := (selectAll_ok hselected).2 s hs
      rw [select?_eq] at hselect
      obtain ⟨q, hq, hq'⟩ := Option.bind_eq_some_iff.1 hselect
      have hhere : b.id? p = some s.1 := by rw [Body.id?, he, Option.map_some, hid]
      rw [hb.eq_of_id? hq' hhere] at hq
      exact hnot r hr hq
    obtain ⟨i', hi', halike⟩ := hcalls.other he hnew
    exact ⟨i', by rw [Body.instr?, hi', Option.map_some], halike⟩

/-- When a selection is to be replaced, its instruction is still there, at its position: the replacements before have kept
it. -/
theorem seekTo?_of_selectAll {before after : List (InstrId × Binding)} {s : InstrId × Binding} {c : Cursor}
    (hb : b.Numbered) (hw : WellTyped b) (h : selectAll b [] rs = .ok (before ++ s :: after))
    (hc : before.foldlM (fun c s => replace c s.1 s.2) ({ body := b } : Cursor) = .ok c) :
    ∃ p, b.positionOf? s.1 = some p ∧ (c.body.positionOf? s.1).bind c.seekTo? = some (c.moveTo (.on p)) := by
  have hmem := mem_ids_of_selectAll h
  have hnodup := (selectAll_ok h).1
  rw [List.map_append, List.map_cons] at hmem hnodup
  obtain ⟨hnodup, -, hapart⟩ := List.nodup_append.1 hnodup
  have hnew : s.1 ∉ before.map Prod.fst := fun hin => hapart _ hin _ List.mem_cons_self rfl
  have hmem' (id : InstrId) (hid : id ∈ before.map Prod.fst) : id ∈ b.entries.map Entry.id :=
    hmem id (List.mem_append_left _ hid)
  obtain ⟨e, he, hid⟩ := List.mem_map.1 (hmem s.1 (List.mem_append_right _ List.mem_cons_self))
  obtain ⟨p, hp⟩ := List.mem_iff_getElem?.1 he
  have hhere : b.id? p = some s.1 := by rw [Body.id?, hp, Option.map_some, hid]
  obtain ⟨hnumbered, hcalls⟩ : c.body.Numbered ∧ b.Calls before c.body := by
    rcases replaceAll_calls (c := { body := b }) hb hw hnodup hmem' with ⟨-, c', hc', hkept⟩ | ⟨-, err, herr⟩
    · obtain rfl := Except.ok.inj (hc.symm.trans hc')
      exact hkept
    · rw [herr] at hc
      cases hc
  refine ⟨p, (Body.positionOf?_eq_some_iff hb).2 hhere, ?_⟩
  have hlength : p < c.body.length := hcalls.length ▸ (List.getElem?_eq_some_iff.1 hp).1
  rw [(Body.positionOf?_eq_some_iff hnumbered).2 (hcalls.id? hhere hnew), Option.bind_some]
  exact if_pos hlength

/-- Rules succeed exactly if each finds an instruction of its own with the effect of its setting and all calls have room.
Then the body has the calls at these positions, with their settings behind the external values that were there, and is the
same everywhere else. No instruction is lost before its turn. -/
theorem applyAll_patched (rs : List BoundRule) (hb : b.Numbered) (hverified : b.verify = .ok ())
    (hfew : b.externals.size ≤ Body.maxExternals) :
    ((∃ b', applyAll rs b = .ok b') ↔ Applicable b rs) ∧ (∀ b', applyAll rs b = .ok b' → Patched b rs b') ∧
      ∀ (before after : List (InstrId × Binding)) (s : InstrId × Binding) (c : Cursor),
        selectAll b [] rs = .ok (before ++ s :: after) →
        before.foldlM (fun c s => replace c s.1 s.2) ({ body := b } : Cursor) = .ok c →
        ∃ p, b.positionOf? s.1 = some p ∧ (c.body.positionOf? s.1).bind c.seekTo? = some (c.moveTo (.on p)) := by
  have hw : WellTyped b := wellTyped_of_findings (verify_eq_ok.1 hverified)
  refine ⟨?_, fun b' h => patched_of_applyAll hb hw h, fun before after s c h hc => seekTo?_of_selectAll hb hw h hc⟩
  rw [exists_applyAll_iff hb hw, applicable_iff hb hfew]

/-- A body that asks a feed until its number is not greater than the argument, and returns a constant. -/
def polling : Body where
  method := ⟨"Feed", "polling"⟩
  signature := ⟨[.i32], [], some .i32⟩
  entries := [⟨⟨0⟩, .call, [.external 0]⟩, ⟨⟨1⟩, .ldarg, [.index 0]⟩, ⟨⟨2⟩, .cgt, []⟩, ⟨⟨3⟩, .brtrue, [.label ⟨0⟩]⟩,
    ⟨⟨4⟩, .ldcI4, [.immediate (.i32 7)]⟩, ⟨⟨5⟩, .ret, []⟩]
  externals := #[⟨"numbers", .i32, .feed 0⟩]
  nextId := 6

/-- Rules for the constant and for the call before it, on which there is a label. -/
def pollingRules : List BoundRule :=
  [⟨⟨.constant (.i32 7), 1, "result"⟩, ⟨"result", .i32, .setting "result"⟩⟩,
    ⟨⟨.and [.not (.opcode .ldarg), .any], 1, "number"⟩, ⟨"number", .i32, .setting "number"⟩⟩]

theorem applyAll_patched_polling : Applicable polling pollingRules ∧
    ∃ b', applyAll pollingRules polling = .ok b' ∧ Patched polling pollingRules b' := by
  obtain ⟨hiff, hpatched, -⟩ := applyAll_patched pollingRules (b := polling) ⟨by decide, by decide⟩ rfl (by decide)
  have happlicable : Applicable polling pollingRules := by
    refine ⟨fun r hr => ?_, by decide +kernel, by decide⟩
    rcases List.mem_cons.1 hr with rfl | hr
    · exact ⟨4, ⟨.ldcI4, [.immediate (.i32 7)]⟩, by decide +kernel, rfl, rfl⟩
    · obtain rfl := List.mem_singleton.1 hr
      exact ⟨0, ⟨.call, [.external 0]⟩, by decide +kernel, rfl, rfl⟩
  obtain ⟨b', hb'⟩ := hiff.2 happlicable
  exact ⟨happlicable, b', hb', hpatched b' hb'⟩

end Graft.BoundRule

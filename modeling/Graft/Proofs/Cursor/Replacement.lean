import Graft.Cursor.Edit
import Graft.Proofs.Body.Substitution

/-!
# Replacing the current instruction

* `remove_eq` gives what a removal leaves behind.
* `insert_of_remove` says that removing the current instruction and putting another one in its place substitutes it.
* `replaceCurrent_eq` says that a replacement by a call that can stand in for the current instruction substitutes the
  call; `replaceCurrent_of_mismatch` and `replaceCurrent_of_full` give the error of any other replacement.
-/

namespace Graft

namespace Cursor

variable {c : Cursor} {p : Nat} {e : Entry}

/-- What `remove` leaves behind: labels on the removed instruction are on the next one now, or stay as they are if there is
none. -/
theorem remove_eq (hplace : c.place = .on p) (he : c.body.entries[p]? = some e) {rest : Body}
    (hrest : rest = { c.body with entries := c.body.entries.eraseIdx p }) :
    ∃ branches, c.remove = .ok (e.instr,
        { body := rest.retarget e.id ((rest.id? p).getD e.id)
          place := .gap p
          removal := some ⟨c.body.effect? e.instr, branches, (rest.id? p).getD e.id⟩ }) ∧
      (c.body.Simple → branches = rest.labelledOn e.id) := by
  simp only [remove, hplace, Body.erase_ok_iff.2 ⟨he, hrest⟩]
  cases rest.id? p with
  | some successor => exact ⟨_, rfl, fun _ => rfl⟩
  | none =>
    dsimp only [Option.getD_none]
    rw [Body.retarget_self]
    refine ⟨_, rfl, fun hsimple => Body.referrers_eq_labelledOn (fun e' he' => ?_) e.id⟩
    rw [hrest] at he'
    exact hsimple e' ((List.eraseIdx_sublist _ _).subset he')

/-- Removing the current instruction and putting another one in its place substitutes it, also when external values are
added in between. -/
theorem insert_of_remove (hb : c.body.Numbered) (hsimple : c.body.Simple) (hplace : c.place = .on p)
    (he : c.body.entries[p]? = some e) : ∃ c₁, c.remove = .ok (e.instr, c₁) ∧
      c₁.removal.map Removal.effect = some (c.body.effect? e.instr) ∧ c₁.body.externals = c.body.externals ∧
      ∀ xs i, { c₁ with body := { c₁.body with externals := xs } }.insert i =
        .ok (c.body.freshId, { body := { c.body.substitute p e.id i with externals := xs }, place := .on p }) := by
  obtain ⟨rest, hrest⟩ : ∃ rest, rest = { c.body with entries := c.body.entries.eraseIdx p } := ⟨_, rfl⟩
  obtain ⟨branches, hremove, hbranches⟩ := remove_eq hplace he hrest
  obtain rfl := hbranches hsimple
  refine ⟨_, hremove, rfl, by rw [hrest]; rfl, fun xs i => ?_⟩
  obtain ⟨b₁, hinsert, hmoved⟩ := Body.retargetOnly_insert hb hsimple he hrest ((rest.id? p).getD e.id) xs i
  have hfresh : { rest.retarget e.id ((rest.id? p).getD e.id) with externals := xs }.freshId = c.body.freshId := by
    rw [hrest]
    rfl
  simp only [insert, insertionPoint, hinsert, hfresh, hmoved]

/-- A replacement by a call that can stand in for the current instruction succeeds as long as the table of external
values has room, and the call is substituted. -/
theorem replaceCurrent_eq (hb : c.body.Numbered) (hsimple : c.body.Simple) (hplace : c.place = .on p)
    (he : c.body.entries[p]? = some e) {x : Binding} (heffect : c.body.effect? e.instr = some ⟨0, 1, some x.type⟩)
    (hroom : c.body.externals.size < Body.maxExternals) : c.replaceCurrent x =
      (.ok ⟨p, e.instr, UInt16.ofNat c.body.externals.size, x.name, x.type⟩,
        { body := c.body.withCall p e.id x, place := .on p }) := by
  obtain ⟨c₁, hremove, hremoval, hexternals, hinsert⟩ := insert_of_remove hb hsimple hplace he
  obtain ⟨r, hr, hreffect⟩ := Option.map_eq_some_iff.1 hremoval
  have hfits : standsIn r.effect x.type = true := by
    rw [hreffect, heffect, standsIn, beq_self_eq_true]
  have hbind : c₁.body.bind x = .ok (UInt16.ofNat c.body.externals.size,
      { c₁.body with externals := c.body.externals.push x }) := by
    rw [← hexternals] at hroom ⊢
    exact Body.bind_ok_iff.2 ⟨hroom, rfl, rfl⟩
  simp only [replaceCurrent, hremove, insertCall, hr, hfits, if_true, insertCall.bound, hbind]
  rw [← hr, hinsert]
  rfl

/-- A call that cannot stand in for the current instruction does not replace it. -/
theorem replaceCurrent_of_mismatch (hb : c.body.Numbered) (hsimple : c.body.Simple) (hplace : c.place = .on p)
    (he : c.body.entries[p]? = some e) {x : Binding} (heffect : c.body.effect? e.instr ≠ some ⟨0, 1, some x.type⟩) :
    (c.replaceCurrent x).1 = .error (.effectMismatch (c.body.effect? e.instr) x.type) := by
  obtain ⟨c₁, hremove, hremoval, -, -⟩ := insert_of_remove hb hsimple hplace he
  obtain ⟨r, hr, hreffect⟩ := Option.map_eq_some_iff.1 hremoval
  have hfits : standsIn r.effect x.type = false := by
    rw [hreffect, standsIn]
    exact beq_false_of_ne heffect
  simp only [replaceCurrent, hremove, insertCall, hr, hfits, Bool.false_eq_true, if_false]
  rw [hreffect]

/-- A call that can stand in for the current instruction does not replace it if the table of external values is full. -/
theorem replaceCurrent_of_full (hb : c.body.Numbered) (hsimple : c.body.Simple) (hplace : c.place = .on p)
    (he : c.body.entries[p]? = some e) {x : Binding} (heffect : c.body.effect? e.instr = some ⟨0, 1, some x.type⟩)
    (hfull : Body.maxExternals ≤ c.body.externals.size) :
    (c.replaceCurrent x).1 = .error (.body .tooManyExternals) := by
  obtain ⟨c₁, hremove, hremoval, hexternals, -⟩ := insert_of_remove hb hsimple hplace he
  obtain ⟨r, hr, hreffect⟩ := Option.map_eq_some_iff.1 hremoval
  have hfits : standsIn r.effect x.type = true := by
    rw [hreffect, heffect, standsIn, beq_self_eq_true]
  have hbind : c₁.body.bind x = .error .tooManyExternals := by
    rw [← hexternals] at hfull
    exact if_neg (Nat.not_lt.2 hfull)
  simp only [replaceCurrent, hremove, insertCall, hr, hfits, if_true, insertCall.bound, hbind]

end Cursor

end Graft

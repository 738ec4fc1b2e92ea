import Graft.Host.MethodTable
import Graft.Proofs.Dict
import Graft.Proofs.Failure

/-!
# Method tables

* `get?_put_self` and the like say what an entry is after a change to the table.
* `commit_eq_ok` says when a commit succeeds.
* `MethodTable.Sound` is an invariant of all tables: a body is stored under the name of its own method, with a revision
  that has been given out.
-/

namespace Graft.MethodTable

variable {t t' : MethodTable} {b : Body} {id : MethodId} {e : Error}

/-! ### Entries -/

theorem get?_put_self (t : MethodTable) (b : Body) :
    (t.put b).get? b.method = some (.managed { b with revision := some (t.revisions + 1) }) :=
  Dict.get?_insert_self ..

theorem get?_put_of_ne (t : MethodTable) (h : id ≠ b.method) : (t.put b).get? id = t.get? id :=
  Dict.get?_insert_of_ne _ h _

/-- A body of a table after another was put in: it is this one, or it was there before. -/
theorem get?_put_cases {b' : Body} (h : (t.put b).get? id = some (.managed b')) :
    (id = b.method ∧ b' = { b with revision := some (t.revisions + 1) }) ∨
    (id ≠ b.method ∧ t.get? id = some (.managed b')) := by
  by_cases hid : id = b.method
  · subst hid
    rw [get?_put_self] at h
    exact .inl ⟨rfl, (Method.managed.inj (Option.some.inj h)).symm⟩
  · rw [get?_put_of_ne t hid] at h
    exact .inr ⟨hid, h⟩

theorem get?_storeIntrinsic_self (t : MethodTable) (id : MethodId) (s : Signature) (n : Native) :
    (t.storeIntrinsic id s n).get? id = some (.intrinsic s n) :=
  Dict.get?_insert_self ..

theorem get?_storeIntrinsic_of_ne (t : MethodTable) {other : MethodId} (h : other ≠ id) (s : Signature) (n : Native) :
    (t.storeIntrinsic id s n).get? other = t.get? other :=
  Dict.get?_insert_of_ne _ h _

/-- The bodies of a table with an intrinsic method more were there before. -/
theorem get?_of_storeIntrinsic {other : MethodId} {s : Signature} {n : Native}
    (h : (t.storeIntrinsic id s n).get? other = some (.managed b)) : t.get? other = some (.managed b) := by
  by_cases hid : other = id
  · subst hid
    rw [get?_storeIntrinsic_self] at h
    cases h
  · rwa [get?_storeIntrinsic_of_ne t hid] at h

theorem body_eq_ok : t.body id = .ok b ↔ t.get? id = some (.managed b) := by
  unfold body
  split <;> simp [*]

theorem store_eq_ok : t.store b = .ok t' ↔ b.verify = .ok () ∧ t' = t.put b := by
  unfold store
  rw [bind_eq_ok]
  constructor
  · rintro ⟨⟨⟩, hverify, ht⟩
    exact ⟨hverify, (Except.ok.inj ht).symm⟩
  · rintro ⟨hverify, rfl⟩
    exact ⟨(), hverify, rfl⟩

theorem store_eq_error : t.store b = .error e ↔ b.verify = .error e := by
  unfold store
  cases b.verify with
  | error e' =>
    show (Except.error e' : Except Error MethodTable) = .error e ↔ _
    rw [Except.error.injEq, Except.error.injEq]
  | ok u => exact ⟨nofun, nofun⟩

/-- A commit succeeds if the method has a body, the new body passes verification and its copy was not taken too early. -/
theorem commit_eq_ok : t.commit b = .ok t' ↔
    ∃ live, t.get? b.method = some (.managed live) ∧ b.verify = .ok () ∧ isStale live b = false ∧ t' = t.put b := by
  unfold commit
  rw [bind_eq_ok]
  constructor
  · rintro ⟨live, hlive, h⟩
    obtain ⟨⟨⟩, hverify, h⟩ := bind_eq_ok.1 h
    cases hstale : isStale live b with
    | true =>
      rw [hstale] at h
      cases h
    | false =>
      rw [hstale] at h
      exact ⟨live, body_eq_ok.1 hlive, hverify, hstale, (Except.ok.inj h).symm⟩
  · rintro ⟨live, hlive, hverify, hstale, rfl⟩
    refine ⟨live, body_eq_ok.2 hlive, bind_eq_ok.2 ⟨(), hverify, ?_⟩⟩
    rw [hstale]
    rfl

/-! ### The invariant -/

/-- Every live body is that of the method it is stored for, and has a revision that has been given out. -/
structure Sound (t : MethodTable) : Prop where
  named : ∀ {id b}, t.get? id = some (.managed b) → b.method = id
  revised : ∀ {id b}, t.get? id = some (.managed b) → ∃ r, b.revision = some r ∧ r ≤ t.revisions

theorem sound_empty : ({} : MethodTable).Sound := ⟨nofun, nofun⟩

theorem Sound.put (h : t.Sound) (b : Body) : (t.put b).Sound := by
  constructor
  · intro id b' hb'
    rcases get?_put_cases hb' with ⟨rfl, rfl⟩ | ⟨-, hold⟩
    · rfl
    · exact h.named hold
  · intro id b' hb'
    rcases get?_put_cases hb' with ⟨-, rfl⟩ | ⟨-, hold⟩
    · exact ⟨_, rfl, Nat.le_refl _⟩
    · obtain ⟨r, hr, hle⟩ := h.revised hold
      exact ⟨r, hr, Nat.le_succ_of_le hle⟩

theorem Sound.store (h : t.Sound) (hb : t.store b = .ok t') : t'.Sound := by
  obtain ⟨-, rfl⟩ := store_eq_ok.1 hb
  exact h.put b

theorem Sound.commit (h : t.Sound) (hb : t.commit b = .ok t') : t'.Sound := by
  obtain ⟨-, -, -, -, rfl⟩ := commit_eq_ok.1 hb
  exact h.put b

theorem Sound.storeIntrinsic (h : t.Sound) (id : MethodId) (s : Signature) (n : Native) :
    (t.storeIntrinsic id s n).Sound :=
  ⟨fun hb => h.named (get?_of_storeIntrinsic hb), fun hb => h.revised (get?_of_storeIntrinsic hb)⟩

end Graft.MethodTable

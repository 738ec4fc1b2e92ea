import Graft.Host.Basic
import Graft.Proofs.Host.Attempts
import Graft.Proofs.Typing.Exactness
import Graft.Proofs.Typing.Substitution

/-!
# Hosts that can be reached

`Host.Reached` holds of the hosts that come about by the operations on hosts, from the empty one.

* `MethodTable.Checked` says that the live bodies of a table pass verification and are numbered.
* `Reached.sound` and `Reached.checked` say that the tables of all hosts that can be reached are as they should be.
* `Reached.define`, `Reached.loadModule` and the like say that no operation leads out of them.
-/

namespace Graft

/-! ### Tables with checked bodies -/

namespace MethodTable

variable {t t' : MethodTable} {b : Body}

/-- Nothing is wrong with any live body, and all of them are numbered. -/
structure Checked (t : MethodTable) : Prop where
  clean : ∀ {id b}, t.get? id = some (.managed b) → b.findings = []
  numbered : ∀ {id b}, t.get? id = some (.managed b) → b.Numbered

theorem checked_empty : ({} : MethodTable).Checked := ⟨nofun, nofun⟩

theorem Checked.put (h : t.Checked) (hb : b.Numbered) (hverify : b.verify = .ok ()) : (t.put b).Checked := by
  constructor
  · intro id b' hb'
    rcases get?_put_cases hb' with ⟨-, rfl⟩ | ⟨-, hold⟩
    · exact ((Typing.wellTyped_of_findings (Typing.verify_eq_ok.1 hverify)).withRevision _).findings
    · exact h.clean hold
  · intro id b' hb'
    rcases get?_put_cases hb' with ⟨-, rfl⟩ | ⟨-, hold⟩
    · exact ⟨hb.nodup, hb.fresh⟩
    · exact h.numbered hold

theorem Checked.store (h : t.Checked) (hb : b.Numbered) (ht : t.store b = .ok t') : t'.Checked := by
  obtain ⟨hverify, rfl⟩ := store_eq_ok.1 ht
  exact h.put hb hverify

theorem Checked.commit (h : t.Checked) (hb : b.Numbered) (ht : t.commit b = .ok t') : t'.Checked := by
  obtain ⟨-, -, hverify, -, rfl⟩ := commit_eq_ok.1 ht
  exact h.put hb hverify

theorem Checked.storeIntrinsic (h : t.Checked) (id : MethodId) (s : Signature) (n : Native) :
    (t.storeIntrinsic id s n).Checked :=
  ⟨fun hb => h.clean (get?_of_storeIntrinsic hb), fun hb => h.numbered (get?_of_storeIntrinsic hb)⟩

end MethodTable

/-- Attempts keep the live bodies checked. -/
theorem World.checked_applyTo {w : World} (hw : w.table.Checked) (target : MethodId) :
    (w.applyTo target).2.table.Checked := by
  rcases table_applyTo w target with h | ⟨live, b, hlive, hstable, hcommit⟩
  · rwa [h]
  · exact hw.commit (hstable Body.stable_numbered (hw.numbered hlive)) hcommit

/-! ### Operations on hosts -/

namespace Host

variable {h h' : Host}

/-- The hosts that the operations lead to. Bodies that are defined or committed are numbered, as all bodies are that are
read from a text or come about by edits. -/
inductive Reached : Host → Prop
  | start : Reached {}
  | subscribe {h : Host} (before : Reached h) (hook : Hook) : Reached (h.subscribe hook)
  | store {h : Host} {b : Body} {t : MethodTable} (before : Reached h) (numbered : b.Numbered)
      (stored : h.world.table.store b = .ok t) : Reached (h.withTable t)
  | storeIntrinsic {h : Host} (before : Reached h) (id : MethodId) (s : Signature) (n : Native) :
      Reached (h.withTable (h.world.table.storeIntrinsic id s n))
  | commit {h : Host} {b : Body} {t : MethodTable} (before : Reached h) (numbered : b.Numbered)
      (committed : h.world.table.commit b = .ok t) : Reached (h.withTable t)
  | tell {h : Host} (before : Reached h) (id : MethodId) (hook : Hook) : Reached (h.tell id hook)
  | applyTo {h : Host} (before : Reached h) (target : MethodId) : Reached (h.applyTo target).2
  | register {h : Host} (before : Reached h) (target : MethodId) (name : String) (patch : Patch) :
      Reached { h with world := { h.world with registry := (h.world.registry.register target name patch).2 } }
  | install {h : Host} (before : Reached h) (plan : Plan) : Reached (h.install plan).2
  | provide {h : Host} (before : Reached h) (p : Providers) :
      Reached { h with world := { h.world with providers := p } }

theorem table_install (h : Host) (plan : Plan) : (h.install plan).2.world.table = h.world.table := by
  show (h.world.install plan).2.table = h.world.table
  unfold World.install
  split
  · rfl
  · split <;> rfl

/-- What holds of the empty table, and is kept by whatever changes a table, holds of the tables of all hosts. -/
private theorem Reached.induct_table {P : MethodTable → Prop} (hempty : P {})
    (hstore : ∀ {t t' b}, P t → b.Numbered → t.store b = .ok t' → P t')
    (hintrinsic : ∀ {t} id s n, P t → P (t.storeIntrinsic id s n))
    (hcommit : ∀ {t t' b}, P t → b.Numbered → t.commit b = .ok t' → P t')
    (hattempt : ∀ {w : World} target, P w.table → P (w.applyTo target).2.table) (hh : Reached h) : P h.world.table := by
  induction hh with
  | start => exact hempty
  | subscribe _ hook ih => exact ih
  | store _ numbered stored ih => exact hstore ih numbered stored
  | storeIntrinsic _ id s n ih => exact hintrinsic id s n ih
  | commit _ numbered committed ih => exact hcommit ih numbered committed
  | tell _ id hook ih =>
    cases hook with
    | registry => exact hattempt id ih
    | recorder tag => exact ih
  | applyTo _ target ih => exact hattempt target ih
  | register _ target name patch ih => exact ih
  | @install h _ plan ih => exact (table_install h plan).symm ▸ ih
  | provide _ p ih => exact ih

theorem Reached.sound (hh : Reached h) : h.world.table.Sound :=
  hh.induct_table MethodTable.sound_empty (fun ht _ hs => ht.store hs) (fun id s n ht => ht.storeIntrinsic id s n)
    (fun ht _ hc => ht.commit hc) fun target hw => World.sound_applyTo hw target

theorem Reached.checked (hh : Reached h) : h.world.table.Checked :=
  hh.induct_table MethodTable.checked_empty (fun ht hb hs => ht.store hb hs)
    (fun id s n ht => ht.storeIntrinsic id s n) (fun ht hb hc => ht.commit hb hc) fun target hw =>
      World.checked_applyTo hw target

/-! ### Compound operations -/

theorem Reached.notify (hh : Reached h) (id : MethodId) : Reached (h.notify id) := by
  unfold Host.notify
  generalize h.hooks = hooks
  induction hooks generalizing h with
  | nil => exact hh
  | cons hook hooks ih => exact ih (hh.tell id hook)

theorem Reached.define (hh : Reached h) {b : Body} (hb : b.Numbered) (hd : h.define b = .ok h') : Reached h' := by
  unfold Host.define at hd
  cases hs : h.world.table.store b with
  | error e =>
    rw [hs] at hd
    cases hd
  | ok t =>
    rw [hs] at hd
    exact Except.ok.inj hd ▸ (hh.store hb hs).notify b.method

theorem Reached.defineIntrinsic (hh : Reached h) (id : MethodId) (s : Signature) (n : Native) :
    Reached (h.defineIntrinsic id s n) :=
  (hh.storeIntrinsic id s n).notify id

theorem Reached.defineAll (hh : Reached h) {bs : List Body} (hbs : ∀ b ∈ bs, b.Numbered) :
    Reached (h.defineAll bs).2 := by
  induction bs generalizing h with
  | nil => exact hh
  | cons b bs ih =>
    unfold Host.defineAll
    split
    · exact hh
    · rename_i hd
      exact ih (hh.define (hbs b List.mem_cons_self) hd) fun c hc => hbs c (List.mem_cons_of_mem b hc)

/-- Bodies that are read from a text are numbered. -/
theorem Reached.loadModule (hh : Reached h) (src : String) : Reached (h.loadModule src).2 := by
  unfold Host.loadModule
  split
  · exact hh
  · rename_i bs hbs
    exact hh.defineAll fun b hb => Assembly.numbered_of_bodies hbs hb

end Host

end Graft

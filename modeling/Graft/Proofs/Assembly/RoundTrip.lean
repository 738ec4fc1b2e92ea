import Graft.Proofs.Assembly.Reassembly
import Graft.Proofs.Body.CanonicalBytes
import Graft.Proofs.Cursor.Stability
import Graft.Proofs.Typing.Operands

/-!
# Listings of edited bodies

Bodies that were read from texts and edited can be written as listings, put together into one text, and read again
(`bodies_of_listings`).

* `Edited` holds of the bodies that come about by reading and editing. `Edited.script` and `Edited.patch` say that
  scripts and patches are edits.
* `Printable` says what a listing can hold, and `ReadBack` what is kept when it is read.
-/

namespace Graft.Assembly

/-! ### Edited bodies -/

/-- The bodies that are read from a text, and those that edits make of them. A body that is defined or committed gets
another revision. -/
inductive Edited : Body → Prop
  | read {src : List Char} {bs : List Body} {b : Body} (text : bodies src = .ok bs) (mem : b ∈ bs) : Edited b
  | push {b : Body} (before : Edited b) (i : Instruction) : Edited (b.push i)
  | insert {b b' : Body} {p : Nat} {i : Instruction} (before : Edited b) (done : b.insert p i = .ok b') : Edited b'
  | erase {b b' : Body} {p : Nat} {e : Entry} (before : Edited b) (done : b.erase p = .ok (e, b')) : Edited b'
  | retarget {b : Body} (before : Edited b) (source target : InstrId) : Edited (b.retarget source target)
  | retargetOnly {b : Body} (before : Edited b) (ids : List InstrId) (source target : InstrId) :
      Edited (b.retargetOnly ids source target)
  | bind {b b' : Body} {x : Binding} {n : UInt16} (before : Edited b) (done : b.bind x = .ok (n, b')) : Edited b'
  | revise {b : Body} (before : Edited b) (r : Option Nat) : Edited { b with revision := r }

theorem stable_edited : Body.Stable Edited where
  erase h he := h.erase he
  insert h hi := h.insert hi
  retarget source target h := h.retarget source target
  retargetOnly ids source target h := h.retargetOnly ids source target
  bind h hx := h.bind hx

/-- Operations at a cursor are edits, also when one of them fails. -/
theorem Edited.script {d : Desk} (h : Edited d.cursor.body) (ss : Script) : Edited (Script.run d ss).2.cursor.body :=
  stable_edited.script h ss

/-- Patches are edits. -/
theorem Edited.patch {b b' : Body} (h : Edited b) {p p' : Providers} {patch : Patch}
    (hedit : patch.edit b p = (.ok b', p')) : Edited b' :=
  stable_edited.edit h hedit

/-- A header can name the method of an edited body. -/
theorem Edited.named {b : Body} (h : Edited b) : Named b.method := by
  have hstable : Body.Stable fun b => Named b.method := Body.stable_of_frame fun _ _ _ _ hb => hb
  induction h with
  | read text mem => exact named_of_bodies text mem
  | push _ i ih => exact ih
  | insert _ done ih => exact hstable.insert ih done
  | erase _ done ih => exact hstable.erase ih done
  | retarget _ source target ih => exact ih
  | retargetOnly _ ids source target ih => exact ih
  | bind _ done ih => exact hstable.bind ih done
  | revise _ r ih => exact ih

/-! ### Printable bodies -/

/-- Every instruction has the operands that its opcode takes, all labels name instructions, and there is no call and not
the one constant whose text is not read back. -/
@[mk_iff]
structure Printable (b : Body) : Prop where
  shape : ∀ i ∈ b.instrs, i.hasShape = true
  labels : ∀ i ∈ b.instrs, ∀ t ∈ i.label?, t ∈ b.entries.map Entry.id
  noCall : ∀ i ∈ b.instrs, i.op ≠ .call
  noMinimum : ∀ i ∈ b.instrs, i.immediate? ≠ some (.i64 Int64.minValue)

instance (b : Body) : Decidable (Printable b) := decidable_of_iff' _ (printable_iff b)

theorem Printable.listable {b : Body} (h : Printable b) {i : Instruction} (hi : i ∈ b.instrs) : Listable b i := by
  have hlabels := h.labels i hi
  have hnoCall := h.noCall i hi
  have hnoMinimum := h.noMinimum i hi
  have hshape := Typing.hasShape_cases (h.shape i hi)
  obtain ⟨op, operands⟩ := i
  dsimp only at hshape hnoCall
  rcases hshape with ⟨hk, rfl⟩ | ⟨v, hk, rfl⟩ | ⟨n, hk, rfl⟩ | ⟨t, hk, rfl⟩ | ⟨n, hk, rfl⟩
  · exact .bare hk
  · exact .constant hk fun hv => hnoMinimum (congrArg some hv)
  · exact .slot hk
  · obtain ⟨p, hp⟩ := Option.isSome_iff_exists.1 (Typing.positionOf?_isSome.2 (hlabels t rfl))
    exact .branch hk hp
  · cases op <;> first | exact absurd rfl hnoCall | cases hk

/-! ### Round trips -/

/-- What is kept of a body when its listing is read: everything but the identities and the external values. -/
structure ReadBack (b b' : Body) : Prop where
  method : b'.method = b.method
  signature : b'.signature = b.signature
  code : b'.content.code = b.content.code
  bytes : b.externals = #[] → ∀ bytes, b.encode = .ok bytes → b'.encode = .ok bytes
  digest : b.externals = #[] → ∀ digest, b.digestText = .ok digest → b'.digestText = .ok digest

private theorem readBack_reassembled {b : Body} (hlistable : ∀ i ∈ b.instrs, Listable b i) :
    ReadBack b (reassembled b) := by
  have hcode := code_reassembled hlistable
  -- no external values are read back, so the content is the same only if there were none
  have hbytes (hexternals : b.externals = #[]) (bytes : List UInt8) (h : b.encode = .ok bytes) :
      (reassembled b).encode = .ok bytes := by
    have hcontent : b.content = (reassembled b).content := by
      rw [Body.content, Body.content, hexternals]
      exact congrArg (Content.mk b.method b.signature []) hcode.symm
    exact Body.encode_of_content_eq hcontent h
  refine ⟨rfl, rfl, hcode, hbytes, fun hexternals digest h => ?_⟩
  cases hb : b.encode with
  | error err =>
    rw [Body.digestText, Body.digest, hb] at h
    cases h
  | ok bytes =>
    rw [Body.digestText, Body.digest, hb] at h
    rw [Body.digestText, Body.digest, hbytes hexternals bytes hb]
    exact h

/-- The listings of edited bodies, put together, are read as the same bodies with other identities: for each of them one
with the same method and signature and the same instructions, all labels on the same positions. If it had no external
values its bytes and its digest are the same as well. -/
theorem bodies_of_listings {bs : List Body} (hne : bs ≠ []) (hedited : ∀ b ∈ bs, Edited b)
    (hprintable : ∀ b ∈ bs, Printable b) :
    ∃ bs', bodies (String.join (bs.map Body.listing)).toList = .ok bs' ∧ List.Forall₂ ReadBack bs bs' := by
  have htext : (String.join (bs.map Body.listing)).toList = bs.flatMap listing := by
    rw [String.toList_join, List.flatMap_map]
    refine List.flatMap_congr fun b _ => ?_
    exact String.toList_ofList
  have hlistable (b : Body) (hb : b ∈ bs) (i : Instruction) (hi : i ∈ b.instrs) : Listable b i :=
    (hprintable b hb).listable hi
  refine ⟨bs.map reassembled, ?_, ?_⟩
  · rw [htext]
    exact bodies_flatMap_listing hne (fun b hb => (hedited b hb).named) hlistable
  · rw [List.forall₂_map_right_iff, List.forall₂_same]
    exact fun b hb => readBack_reassembled (hlistable b hb)

/-- A loop that goes round as long as a given instruction gives true. -/
def loop (test : Entry) (nextId : Nat) : Body where
  method := ⟨"Clock", "wait"⟩
  signature := ⟨[.bool], [], none⟩
  entries := [test, ⟨⟨1⟩, .brtrue, [.label test.id]⟩, ⟨⟨2⟩, .ret, []⟩]
  nextId := nextId

/-- A loop on an argument, as a text gives it. -/
def waiting : Body := loop ⟨⟨0⟩, .ldarg, [.index 0]⟩ 3

/-- The same loop with a constant put in place of the argument, so that the label is no longer on a position. -/
def ready : Body := loop ⟨⟨3⟩, .ldcBool, [.immediate (.bool false)]⟩ 4

theorem bodies_of_listings_loop : (∀ b ∈ [ready, waiting], Edited b) ∧ (∀ b ∈ [ready, waiting], Printable b) ∧
    ∃ bs, bodies (String.join ([ready, waiting].map Body.listing)).toList = .ok bs ∧
      List.Forall₂ ReadBack [ready, waiting] bs := by
  have hwaiting : Edited waiting := by
    have htext : bodies ".method Clock::wait(bool)\n@top:\nldarg 0\nbrtrue @top\nret\n".toList = .ok [waiting] := rfl
    exact .read htext (List.mem_singleton_self waiting)
  have hready : Edited ready := by
    obtain ⟨erased, herase⟩ : ∃ erased, waiting.erase 0 = .ok erased := ⟨_, rfl⟩
    obtain ⟨inserted, hinsert⟩ : ∃ inserted,
        erased.2.insert 0 ⟨.ldcBool, [.immediate (.bool false)]⟩ = .ok inserted := by
      obtain rfl := Except.ok.inj herase
      exact ⟨_, rfl⟩
    have hmoved : inserted.retarget ⟨0⟩ ⟨3⟩ = ready := by
      obtain rfl := Except.ok.inj herase
      obtain rfl := Except.ok.inj hinsert
      rfl
    exact hmoved ▸ ((hwaiting.erase herase).insert hinsert).retarget ⟨0⟩ ⟨3⟩
  have hedited : ∀ b ∈ [ready, waiting], Edited b := by
    rintro b (_ | ⟨_, _ | ⟨_, ⟨⟩⟩⟩)
    · exact hready
    · exact hwaiting
  have hprintable : ∀ b ∈ [ready, waiting], Printable b := by decide +kernel
  exact ⟨hedited, hprintable, bodies_of_listings (List.cons_ne_nil _ _) hedited hprintable⟩

end Graft.Assembly

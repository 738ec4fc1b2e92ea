import Graft.Body.Encoding
import Graft.Proofs.Body.Content
import Graft.Proofs.Failure

/-!
# Bytes identify contents

Two bodies that can be encoded have the same bytes exactly if they have the same content
(`encode_eq_iff_content_eq`).

* `Delimits` says of the encoders of two kinds of parts that the bytes tell the parts, whatever follows them, and that
  nothing but what is told decides the bytes. Each field of an encoding has a lemma that says so.
* `Body.encode_eq_ok` gives the fields of the bytes of a body in their order.
-/

namespace Graft

namespace Encoding

variable {α β γ : Type} {f : α → Except Error (List UInt8)} {g : β → Except Error (List UInt8)} {u : α → γ} {v : β → γ}
  {as : List α} {bs : List β} {b b' : Body} {x y r s : List UInt8} {name : String} {w n m p q : Nat}

/-- The bytes that `f` and `g` give to parts tell `u` and `v` of the parts, whatever follows the bytes, and nothing else
of the parts decides the bytes. -/
structure Delimits (f : α → Except Error (List UInt8)) (g : β → Except Error (List UInt8)) (u : α → γ) (v : β → γ) :
    Prop where
  part : ∀ {a b x y r s}, f a = .ok x → g b = .ok y → x ++ r = y ++ s → u a = v b ∧ r = s
  bytes : ∀ {a b x}, u a = v b → f a = .ok x → g b = .ok x

private theorem Delimits.of_part (h : ∀ {a b x y r s}, f a = .ok x → f b = .ok y → x ++ r = y ++ s → a = b ∧ r = s) :
    Delimits f f id id where
  part := h
  bytes {a b _} hab hx := by
    obtain rfl : a = b := hab
    exact hx

/-! ### Numbers -/

private theorem length_littleEndian (w n : Nat) : (littleEndian w n).length = w := by
  induction w generalizing n with
  | zero => rfl
  | succ w ih => simp [littleEndian, ih]

private theorem littleEndian_inj (hn : n < capacity w) (hm : m < capacity w) (h : littleEndian w n = littleEndian w m) :
    n = m := by
  induction w generalizing n m with
  | zero =>
    simp only [capacity] at hn hm
    omega
  | succ w ih =>
    simp only [capacity] at hn hm
    simp only [littleEndian, List.cons.injEq] at h
    have hlow : n % 256 = m % 256 := by
      have := congrArg UInt8.toNat h.1
      simpa using this
    have hhigh : n / 256 = m / 256 := ih (by omega) (by omega) h.2
    omega

/-- A number of which the bytes are told apart from what follows, if it fits the width. -/
private theorem littleEndian_append (hn : n < capacity w) (hm : m < capacity w)
    (h : littleEndian w n ++ r = littleEndian w m ++ s) : n = m ∧ r = s := by
  obtain ⟨hbytes, hrest⟩ := List.append_inj h (by rw [length_littleEndian, length_littleEndian])
  exact ⟨littleEndian_inj hn hm hbytes, hrest⟩

theorem field_eq_ok : field name w n = .ok x ↔ n < capacity w ∧ littleEndian w n = x := by
  unfold field
  split <;> simp [*]

private theorem delimits_field (name : String) (w : Nat) : Delimits (field name w) (field name w) id id := by
  refine .of_part fun hx hy h => ?_
  obtain ⟨hn, rfl⟩ := field_eq_ok.1 hx
  obtain ⟨hm, rfl⟩ := field_eq_ok.1 hy
  exact littleEndian_append hn hm h

/-! ### Texts, types and constants -/

/-- A length in front of some bytes tells where they end. -/
private theorem counted_append {c d : List UInt8} (hc : field name w x.length = .ok c) (hd : field name w y.length = .ok d)
    (h : c ++ (x ++ r) = d ++ (y ++ s)) : x = y ∧ r = s := by
  obtain ⟨hlength, hrest⟩ := (delimits_field name w).part hc hd h
  exact List.append_inj hrest hlength

private theorem delimits_text : Delimits text text id id := by
  refine .of_part fun hx hy h => ?_
  obtain ⟨c, hc, hx⟩ := bind_eq_ok.1 hx
  obtain ⟨d, hd, hy⟩ := bind_eq_ok.1 hy
  cases hx
  cases hy
  rw [List.append_assoc, List.append_assoc] at h
  obtain ⟨hbytes, hrest⟩ := counted_append hc hd h
  exact ⟨String.toByteArray_inj.1 (ByteArray.ext (Array.toList_inj.1 hbytes)), hrest⟩

private theorem typeTag_inj {t t' : ValueType} (h : typeTag t = typeTag t') : t = t' := by
  cases t <;> cases t' <;> first | rfl | exact absurd h (by decide)

private theorem delimits_types : Delimits types types id id := by
  refine .of_part fun hx hy h => ?_
  obtain ⟨c, hc, hx⟩ := bind_eq_ok.1 hx
  obtain ⟨d, hd, hy⟩ := bind_eq_ok.1 hy
  cases hx
  cases hy
  rw [List.append_assoc, List.append_assoc] at h
  rw [← List.length_map (f := typeTag)] at hc hd
  obtain ⟨htags, hrest⟩ := counted_append hc hd h
  exact ⟨(List.map_inj_right fun _ _ => typeTag_inj).1 htags, hrest⟩

private theorem delimits_binding :
    Delimits binding binding (fun x => (x.name, x.type)) (fun x => (x.name, x.type)) where
  part hx hy h := by
    obtain ⟨c, hc, hx⟩ := bind_eq_ok.1 hx
    obtain ⟨d, hd, hy⟩ := bind_eq_ok.1 hy
    cases hx
    cases hy
    rw [List.append_assoc, List.append_assoc] at h
    obtain ⟨hname, hrest⟩ := delimits_text.part hc hd h
    obtain ⟨htag, hrest⟩ := List.cons.inj hrest
    exact ⟨Prod.ext hname (typeTag_inj htag), hrest⟩
  bytes {x y _} h hx := by
    obtain ⟨hname, htype⟩ := Prod.mk.inj h
    rwa [binding, ← hname, ← htype]

private theorem returnTag_inj {t t' : Option ValueType} (h : returnTag t = returnTag t') : t = t' := by
  cases t with
  | none =>
    cases t' with
    | none => rfl
    | some t' => cases t' <;> exact absurd h (by decide)
  | some t =>
    cases t' with
    | none => cases t <;> exact absurd h (by decide)
    | some t' => exact congrArg some (typeTag_inj h)

private theorem constant_append {v v' : Value} (h : constant v ++ r = constant v' ++ s) : v = v' ∧ r = s := by
  have htype : v.type = v'.type := by
    cases v <;> cases v' <;> first | rfl | exact absurd (List.cons.inj h).1 (by decide)
  cases v with
  | i32 n =>
    cases v' with
    | i32 m =>
      obtain ⟨hword, hrest⟩ := littleEndian_append (UInt32.toNat_lt _) (UInt32.toNat_lt _) (List.cons.inj h).2
      exact ⟨congrArg (fun k => Value.i32 (.ofUInt32 k)) (UInt32.toNat_inj.1 hword), hrest⟩
    | _ => cases htype
  | i64 n =>
    cases v' with
    | i64 m =>
      obtain ⟨hword, hrest⟩ := littleEndian_append (UInt64.toNat_lt _) (UInt64.toNat_lt _) (List.cons.inj h).2
      exact ⟨congrArg (fun k => Value.i64 (.ofUInt64 k)) (UInt64.toNat_inj.1 hword), hrest⟩
    | _ => cases htype
  | bool n =>
    cases v' with
    | bool m =>
      obtain ⟨hbit, hrest⟩ := List.cons.inj (List.cons.inj h).2
      cases n <;> cases m <;> first | exact ⟨rfl, hrest⟩ | exact absurd hbit (by decide)
    | _ => cases htype

/-! ### Lists of parts -/

theorem concat_cons_eq_ok {a : α} :
    concat f (a :: as) = .ok x ↔ ∃ y z, f a = .ok y ∧ concat f as = .ok z ∧ y ++ z = x := by
  rw [concat, bind_eq_ok]
  constructor
  · rintro ⟨y, hy, h⟩
    obtain ⟨z, hz, h⟩ := bind_eq_ok.1 h
    exact ⟨y, z, hy, hz, Except.ok.inj h⟩
  · rintro ⟨y, z, hy, hz, rfl⟩
    exact ⟨y, hy, bind_eq_ok.2 ⟨z, hz, rfl⟩⟩

/-- The number of the parts has to be known, since nothing stands behind the last of them. -/
private theorem Delimits.concat_part (h : Delimits f g u v) (hlength : as.length = bs.length)
    (hx : concat f as = .ok x) (hy : concat g bs = .ok y) (hxy : x ++ r = y ++ s) : as.map u = bs.map v ∧ r = s := by
  induction as generalizing bs x y with
  | nil =>
    obtain rfl := List.length_eq_zero_iff.1 hlength.symm
    cases hx
    cases hy
    exact ⟨rfl, hxy⟩
  | cons a as ih =>
    cases bs with
    | nil => cases hlength
    | cons b bs =>
      obtain ⟨x₁, x₂, hx₁, hx₂, rfl⟩ := concat_cons_eq_ok.1 hx
      obtain ⟨y₁, y₂, hy₁, hy₂, rfl⟩ := concat_cons_eq_ok.1 hy
      rw [List.append_assoc, List.append_assoc] at hxy
      obtain ⟨hhead, hrest⟩ := h.part hx₁ hy₁ hxy
      obtain ⟨htail, hrest⟩ := ih (Nat.succ.inj hlength) hx₂ hy₂ hrest
      exact ⟨by rw [List.map_cons, List.map_cons, hhead, htail], hrest⟩

private theorem Delimits.concat_bytes (h : Delimits f g u v) (hmap : as.map u = bs.map v) (hx : concat f as = .ok x) :
    concat g bs = .ok x := by
  induction as generalizing bs x with
  | nil =>
    obtain rfl := List.map_eq_nil_iff.1 hmap.symm
    exact hx
  | cons a as ih =>
    obtain ⟨b, bs, rfl, hhead, htail⟩ := List.map_eq_cons_iff.1 hmap.symm
    obtain ⟨x₁, x₂, hx₁, hx₂, rfl⟩ := concat_cons_eq_ok.1 hx
    exact concat_cons_eq_ok.2 ⟨x₁, x₂, h.bytes hhead.symm hx₁, ih htail.symm hx₂, rfl⟩

theorem exists_of_concat_eq_ok {a : α} (h : concat f as = .ok x) (ha : a ∈ as) : ∃ y, f a = .ok y := by
  induction as generalizing x with
  | nil => cases ha
  | cons c as ih =>
    obtain ⟨y, z, hy, hz, -⟩ := concat_cons_eq_ok.1 h
    rcases List.mem_cons.1 ha with rfl | ha
    · exact ⟨y, hy⟩
    · exact ih hz ha

/-! ### Instructions -/

/-- The bytes of a resolved operand: a tag and a field whose width the tag tells. -/
private inductive Written : Resolved → List UInt8 → Prop
  | immediate (v : Value) : Written (.immediate v) (constant v)
  | position {n : Nat} (bound : n < capacity 4) : Written (.position (some n)) (0x10 :: littleEndian 4 n)
  | index (n : UInt16) : Written (.index n) (0x11 :: littleEndian 2 n.toNat)
  | external (n : UInt16) : Written (.external n) (0x12 :: littleEndian 2 n.toNat)

private theorem operand_eq_ok {o : Operand} : operand b p o = .ok x ↔ Written (o.resolve b) x := by
  cases o with
  | immediate v =>
    rw [operand, Operand.resolve]
    refine ⟨fun h => Except.ok.inj h ▸ .immediate v, fun h => ?_⟩
    cases h
    rfl
  | label t =>
    rw [operand, Operand.resolve]
    cases b.positionOf? t with
    | none =>
      constructor <;>
      · intro h
        cases h
    | some n =>
      rw [bind_eq_ok]
      constructor
      · rintro ⟨y, hy, h⟩
        obtain ⟨hn, rfl⟩ := field_eq_ok.1 hy
        exact Except.ok.inj h ▸ .position hn
      · rintro (_ | hn)
        exact ⟨_, field_eq_ok.2 ⟨hn, rfl⟩, rfl⟩
  | index n =>
    rw [operand, Operand.resolve]
    refine ⟨fun h => Except.ok.inj h ▸ .index n, fun h => ?_⟩
    cases h
    rfl
  | external n =>
    rw [operand, Operand.resolve]
    refine ⟨fun h => Except.ok.inj h ▸ .external n, fun h => ?_⟩
    cases h
    rfl

private theorem constant_head (v : Value) (r : List UInt8) : ∃ z, constant v ++ r = typeTag v.type :: z := by
  cases v <;> exact ⟨_, rfl⟩

private theorem Written.append {o o' : Resolved} (hx : Written o x) (hy : Written o' y) (h : x ++ r = y ++ s) :
    o = o' ∧ r = s := by
  -- operands of different kinds differ in their first bytes
  have htag (v : Value) {c : UInt8} {z z' : List UInt8} (hc : c ≠ 1 ∧ c ≠ 2 ∧ c ≠ 3) :
      constant v ++ z ≠ c :: z' := by
    intro heq
    obtain ⟨z₁, hz₁⟩ := constant_head v z
    rw [hz₁] at heq
    have := (List.cons.inj heq).1
    cases v <;> simp_all [Value.type, typeTag]
  cases hx with
  | immediate v =>
    cases hy with
    | immediate v' =>
      obtain ⟨rfl, hrest⟩ := constant_append h
      exact ⟨rfl, hrest⟩
    | position | index | external => exact absurd h (htag v (by decide))
  | position hn =>
    cases hy with
    | immediate v' => exact absurd h.symm (htag v' (by decide))
    | position hm =>
      obtain ⟨rfl, hrest⟩ := littleEndian_append hn hm (List.cons.inj h).2
      exact ⟨rfl, hrest⟩
    | index | external => exact absurd (List.cons.inj h).1 (by decide)
  | index n =>
    cases hy with
    | immediate v' => exact absurd h.symm (htag v' (by decide))
    | index m =>
      obtain ⟨hword, hrest⟩ := littleEndian_append n.toNat_lt m.toNat_lt (List.cons.inj h).2
      exact ⟨congrArg Resolved.index (UInt16.toNat_inj.1 hword), hrest⟩
    | position | external => exact absurd (List.cons.inj h).1 (by decide)
  | external n =>
    cases hy with
    | immediate v' => exact absurd h.symm (htag v' (by decide))
    | external m =>
      obtain ⟨hword, hrest⟩ := littleEndian_append n.toNat_lt m.toNat_lt (List.cons.inj h).2
      exact ⟨congrArg Resolved.external (UInt16.toNat_inj.1 hword), hrest⟩
    | position | index => exact absurd (List.cons.inj h).1 (by decide)

private theorem delimits_operand (b b' : Body) (p q : Nat) :
    Delimits (operand b p) (operand b' q) (Operand.resolve b) (Operand.resolve b') where
  part hx hy h := (operand_eq_ok.1 hx).append (operand_eq_ok.1 hy) h
  bytes h hx := operand_eq_ok.2 (h ▸ operand_eq_ok.1 hx)

private theorem byte_inj {op op' : Opcode} (h : op.byte = op'.byte) : op = op' := by
  have hread (op : Opcode) : Opcode.ofByte? op.byte = some op := by cases op <;> rfl
  exact Option.some.inj ((hread op).symm.trans ((congrArg _ h).trans (hread op')))

private theorem instruction_eq_ok {i : Instruction} : instruction b p i = .ok x ↔
    i.operands.length < 256 ∧ ∃ y, concat (operand b p) i.operands = .ok y ∧
      i.op.byte :: UInt8.ofNat i.operands.length :: y = x := by
  unfold instruction
  by_cases hlength : i.operands.length < 256
  · simp only [hlength, if_true, true_and]
    rw [bind_eq_ok]
    exact exists_congr fun y => and_congr_right fun _ => ⟨Except.ok.inj, congrArg Except.ok⟩
  · rw [if_neg hlength]
    exact ⟨nofun, fun h => absurd h.1 hlength⟩

private theorem delimits_instruction (b b' : Body) :
    Delimits (fun i : Instruction × Nat => instruction b i.2 i.1) (fun i : Instruction × Nat => instruction b' i.2 i.1)
      (fun i => i.1.resolve b) (fun i => i.1.resolve b') where
  part {i i' _ _ _ _} hx hy h := by
    obtain ⟨hi, x, hoperands, rfl⟩ := instruction_eq_ok.1 hx
    obtain ⟨hi', y, hoperands', rfl⟩ := instruction_eq_ok.1 hy
    obtain ⟨hop, h⟩ := List.cons.inj h
    obtain ⟨hcount, h⟩ := List.cons.inj h
    have hlength : i.1.operands.length = i'.1.operands.length := by
      have := congrArg UInt8.toNat hcount
      rw [UInt8.toNat_ofNat', UInt8.toNat_ofNat'] at this
      omega
    obtain ⟨hoperands, hrest⟩ := (delimits_operand b b' _ _).concat_part hlength hoperands hoperands' h
    exact ⟨Prod.ext (byte_inj hop) hoperands, hrest⟩
  bytes {i i' _} h hx := by
    obtain ⟨hi, x, hencoded, rfl⟩ := instruction_eq_ok.1 hx
    obtain ⟨hop, hoperands⟩ := Prod.mk.inj h
    have hlength : i.1.operands.length = i'.1.operands.length := by
      simpa using congrArg List.length hoperands
    refine instruction_eq_ok.2 ⟨hlength ▸ hi, x, (delimits_operand b b' _ _).concat_bytes hoperands hencoded, ?_⟩
    rw [hop, hlength]

end Encoding

namespace Body

open Encoding

variable {b b' : Body} {x y : List UInt8}

/-- The bytes of a body, field by field. -/
theorem encode_eq_ok : b.encode = .ok x ↔ ∃ t n ps ls k xs c is, text b.method.declaringType = .ok t ∧
    text b.method.name = .ok n ∧ types b.signature.params = .ok ps ∧ types b.signature.locals = .ok ls ∧
    field "external table" 2 b.externals.size = .ok k ∧ concat binding b.externals.toList = .ok xs ∧
    field "instruction count" 4 b.length = .ok c ∧ concat (fun i => instruction b i.2 i.1) b.instrs.zipIdx = .ok is ∧
    magic ++ (t ++ (n ++ (ps ++ (ls ++ (returnTag b.signature.returns :: (k ++ (xs ++ (c ++ is)))))))) = x := by
  simp only [encode, bind_eq_ok, List.append_assoc, List.singleton_append]
  constructor
  · rintro ⟨t, ht, n, hn, ps, hps, ls, hls, k, hk, xs, hxs, c, hc, is, his, h⟩
    exact ⟨t, n, ps, ls, k, xs, c, is, ht, hn, hps, hls, hk, hxs, hc, his, Except.ok.inj h⟩
  · rintro ⟨t, n, ps, ls, k, xs, c, is, ht, hn, hps, hls, hk, hxs, hc, his, rfl⟩
    exact ⟨t, ht, n, hn, ps, hps, ls, hls, k, hk, xs, hxs, c, hc, is, his, rfl⟩

private theorem map_resolve (b : Body) :
    b.instrs.zipIdx.map (fun i => i.1.resolve b) = b.instrs.map (Instruction.resolve b) := by
  have hfst : b.instrs.zipIdx.map Prod.fst = b.instrs := List.zipIdx_map_fst 0 b.instrs
  calc b.instrs.zipIdx.map (fun i => i.1.resolve b)
      = (b.instrs.zipIdx.map Prod.fst).map (Instruction.resolve b) := by rw [List.map_map]; rfl
    _ = b.instrs.map (Instruction.resolve b) := by rw [hfst]

/-- The content of a body can be told from its bytes. -/
theorem content_eq_of_encode_eq (hx : b.encode = .ok x) (hy : b'.encode = .ok x) : b.content = b'.content := by
  obtain ⟨t, n, ps, ls, k, xs, c, is, ht, hn, hps, hls, hk, hxs, hc, his, hbytes⟩ := encode_eq_ok.1 hx
  obtain ⟨t', n', ps', ls', k', xs', c', is', ht', hn', hps', hls', hk', hxs', hc', his', hbytes'⟩ := encode_eq_ok.1 hy
  have h := List.append_cancel_left (hbytes.trans hbytes'.symm)
  obtain ⟨hdeclaring, h⟩ := delimits_text.part ht ht' h
  obtain ⟨hname, h⟩ := delimits_text.part hn hn' h
  obtain ⟨hparams, h⟩ := delimits_types.part hps hps' h
  obtain ⟨hlocals, h⟩ := delimits_types.part hls hls' h
  obtain ⟨hreturns, h⟩ := List.cons.inj h
  obtain ⟨hsize, h⟩ := (delimits_field ..).part hk hk' h
  obtain ⟨hexternals, h⟩ := delimits_binding.concat_part (by simpa using hsize) hxs hxs' h
  obtain ⟨hlength, h⟩ := (delimits_field ..).part hc hc' h
  obtain ⟨hcode, -⟩ := (delimits_instruction b b').concat_part (r := []) (s := [])
    (by simpa [length_instrs] using hlength) his his' (by rw [h])
  rw [map_resolve, map_resolve] at hcode
  have hmethod : b.method = b'.method := by
    cases hm : b.method
    cases hm' : b'.method
    simp_all
  have hsignature : b.signature = b'.signature := by
    have := returnTag_inj hreturns
    cases hs : b.signature
    cases hs' : b'.signature
    simp_all
  simp only [content, hmethod, hsignature, hexternals, hcode]

/-- All labels of a body that can be encoded name an instruction. -/
theorem resolve_ne_of_encode (hx : b.encode = .ok x) {i : Instruction} (hi : i ∈ b.instrs) {o : Operand}
    (ho : o ∈ i.operands) : o.resolve b ≠ .position none := by
  obtain ⟨t, n, ps, ls, k, xs, c, is, -, -, -, -, -, -, -, his, -⟩ := encode_eq_ok.1 hx
  obtain ⟨p, hp, rfl⟩ := List.mem_iff_getElem.1 hi
  have hmem : (b.instrs[p], p) ∈ b.instrs.zipIdx := by
    simp [List.mem_zipIdx_iff_getElem?, hp]
  obtain ⟨y, hy⟩ := exists_of_concat_eq_ok his hmem
  obtain ⟨-, z, hz, -⟩ := instruction_eq_ok.1 hy
  obtain ⟨w, hw⟩ := exists_of_concat_eq_ok hz ho
  intro hnone
  have hwritten := operand_eq_ok.1 hw
  rw [hnone] at hwritten
  cases hwritten

/-- The bytes of a body are those of every body of the same content. -/
theorem encode_of_content_eq (h : b.content = b'.content) (hx : b.encode = .ok x) : b'.encode = .ok x := by
  obtain ⟨t, n, ps, ls, k, xs, c, is, ht, hn, hps, hls, hk, hxs, hc, his, rfl⟩ := encode_eq_ok.1 hx
  obtain ⟨hmethod, hsignature, hexternals, hcode⟩ := Content.mk.inj h
  have hsize : b.externals.size = b'.externals.size := by
    simpa using congrArg List.length hexternals
  have hlength : b.length = b'.length := by
    simpa [length_instrs] using congrArg List.length hcode
  rw [← map_resolve, ← map_resolve] at hcode
  rw [hmethod] at ht hn
  rw [hsignature] at hps hls ⊢
  exact encode_eq_ok.2 ⟨t, n, ps, ls, k, xs, c, is, ht, hn, hps, hls, hsize ▸ hk,
    delimits_binding.concat_bytes hexternals hxs, hlength ▸ hc, (delimits_instruction b b').concat_bytes hcode his, rfl⟩

/-- Two bodies that can be encoded have the same bytes exactly if they have the same content. A body can be encoded if
another one of the same content can. Other identities, another next identity and another revision change nothing. -/
theorem encode_eq_iff_content_eq (b b' : Body) :
    (∀ x y, b.encode = .ok x → b'.encode = .ok y → (x = y ↔ b.content = b'.content)) ∧
    (b.content = b'.content → ∀ x, b.encode = .ok x ↔ b'.encode = .ok x) ∧
    ∀ f : InstrId → InstrId, (∀ s t, f s = f t → s = t) → ∀ nextId revision x,
      { b.renumber f with nextId := nextId, revision := revision }.encode = .ok x ↔ b.encode = .ok x := by
  have hsame {c c' : Body} (h : c.content = c'.content) (x : List UInt8) : c.encode = .ok x ↔ c'.encode = .ok x :=
    ⟨encode_of_content_eq h, encode_of_content_eq h.symm⟩
  refine ⟨fun x y hx hy => ⟨?_, ?_⟩, hsame, ?_⟩
  · rintro rfl
    exact content_eq_of_encode_eq hx hy
  · intro h
    exact Except.ok.inj (((hsame h x).1 hx).symm.trans hy)
  · intro f hf nextId revision x
    have hcontent : { b.renumber f with nextId := nextId, revision := revision }.content = b.content :=
      content_renumber hf b
    exact hsame hcontent x

/-- A loop as it was read from a text. -/
def loop : Body where
  method := ⟨"Feed", "loop"⟩
  signature := ⟨[.i32], [.bool], none⟩
  entries := [⟨⟨0⟩, .ldarg, [.index 0]⟩, ⟨⟨1⟩, .brtrue, [.label ⟨0⟩]⟩, ⟨⟨2⟩, .ret, []⟩]
  nextId := 3

/-- The loop with its head taken out and put in again. -/
def rejoined : Body :=
  { loop with
    entries := [⟨⟨3⟩, .ldarg, [.index 0]⟩, ⟨⟨1⟩, .brtrue, [.label ⟨3⟩]⟩, ⟨⟨2⟩, .ret, []⟩]
    nextId := 4
    revision := some 7 }

theorem encode_rejoined : ∃ x, loop.encode = .ok x ∧ rejoined.encode = .ok x ∧ loop.content = rejoined.content ∧
    (loop.renumber fun t => ⟨t.number + 5⟩).encode = .ok x := by
  obtain ⟨x, hx⟩ : ∃ x, loop.encode = .ok x := ⟨_, rfl⟩
  obtain ⟨y, hy⟩ : ∃ y, rejoined.encode = .ok y := ⟨_, rfl⟩
  obtain ⟨hbytes, hencode, hrenumber⟩ := encode_eq_iff_content_eq loop rejoined
  have hcontent : loop.content = rejoined.content := by decide
  obtain rfl : x = y := (hbytes x y hx hy).2 hcontent
  have hinjective (s t : InstrId) (h : (⟨s.number + 5⟩ : InstrId) = ⟨t.number + 5⟩) : s = t := by
    cases s
    cases t
    simpa using h
  exact ⟨x, hx, (hencode hcontent x).1 hx, hcontent, (hrenumber _ hinjective 3 none x).2 hx⟩

end Body

end Graft

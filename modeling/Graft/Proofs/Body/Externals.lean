import Graft.Proofs.Body.CanonicalBytes

/-!
# Rows for external values

Rows are added to the table of external values as long as 16 bits can name the new one, and bodies are encoded as long
as 16 bits hold the number of rows. These are not the same: the last row that can be added is one too many
(`Body.bindAll_encode`).

* `Body.bindAll` adds one row after the other, and `Body.bindAll_eq` says when this fails.
* `Body.encode_rows` and `Body.encode_full` say which tables can stand in the place of another in an encoding.
-/

namespace Graft

namespace Encoding

variable {α : Type} {f : α → Except Error (List UInt8)} {as : List α}

private theorem exists_concat (h : ∀ a ∈ as, ∃ y, f a = .ok y) : ∃ x, concat f as = .ok x := by
  induction as with
  | nil => exact ⟨[], rfl⟩
  | cons a as ih =>
    obtain ⟨y, hy⟩ := h a List.mem_cons_self
    obtain ⟨z, hz⟩ := ih fun c hc => h c (List.mem_cons_of_mem a hc)
    exact ⟨y ++ z, concat_cons_eq_ok.2 ⟨y, z, hy, hz, rfl⟩⟩

/-- A row can be written if 16 bits hold the number of bytes of its name. -/
theorem exists_binding {x : Binding} (hx : x.name.utf8ByteSize ≤ 65535) : ∃ bytes, binding x = .ok bytes := by
  have hfits : x.name.toUTF8.data.toList.length < capacity 2 := Nat.lt_succ_of_le hx
  refine ⟨_, bind_eq_ok.2 ⟨_, bind_eq_ok.2 ⟨_, field_eq_ok.2 ⟨hfits, rfl⟩, rfl⟩, rfl⟩⟩

end Encoding

namespace Body

open Encoding

variable {b : Body} {xs : List Binding} {bytes : List UInt8}

/-- The body with rows added for external values one after the other, up to the first that fails. -/
def bindAll (b : Body) (xs : List Binding) : Except Error Body :=
  xs.foldlM (fun b x => (b.bind x).map Prod.snd) b

private theorem map_bind (b : Body) (x : Binding) : (b.bind x).map Prod.snd =
    if b.externals.size < maxExternals then .ok { b with externals := b.externals.push x }
    else .error .tooManyExternals := by
  unfold bind
  dsimp only
  split <;> rfl

/-- Rows are added until the table is full. -/
theorem bindAll_eq (b : Body) (xs : List Binding) (hb : b.externals.size ≤ maxExternals) : b.bindAll xs =
    if b.externals.size + xs.length ≤ maxExternals then .ok { b with externals := b.externals ++ xs.toArray }
    else .error .tooManyExternals := by
  induction xs generalizing b with
  | nil =>
    have hroom : b.externals.size + ([] : List Binding).length ≤ maxExternals := hb
    rw [if_pos hroom, Array.append_empty]
    rfl
  | cons x xs ih =>
    have hlength : b.externals.size + (x :: xs).length = (b.externals.push x).size + xs.length := by
      rw [Array.size_push, List.length_cons]
      omega
    rw [bindAll, List.foldlM_cons, map_bind, hlength]
    by_cases hfree : b.externals.size < maxExternals
    · rw [if_pos hfree]
      have hsize : (b.externals.push x).size ≤ maxExternals := by rwa [Array.size_push]
      refine (ih { b with externals := b.externals.push x } hsize).trans ?_
      rw [List.push_append_toArray]
    · have hover : ¬ (b.externals.push x).size + xs.length ≤ maxExternals := by
        rw [Array.size_push]
        omega
      rw [if_neg hfree, if_neg hover]
      rfl

/-- Another table can stand in an encoding if it is not too long and each of its rows can be written. -/
theorem encode_rows (hb : b.encode = .ok bytes) {ys : Array Binding} (hys : ∀ x ∈ ys, ∃ bytes, binding x = .ok bytes)
    (hsize : ys.size < capacity 2) : ∃ bytes', { b with externals := ys }.encode = .ok bytes' := by
  obtain ⟨t, n, ps, ls, k, xs, c, is, ht, hn, hps, hls, -, -, hc, his, -⟩ := encode_eq_ok.1 hb
  obtain ⟨xs', hxs'⟩ := exists_concat fun x hx => hys x (Array.mem_toList_iff.1 hx)
  exact ⟨_, encode_eq_ok.2
    ⟨t, n, ps, ls, _, xs', c, is, ht, hn, hps, hls, field_eq_ok.2 ⟨hsize, rfl⟩, hxs', hc, his, rfl⟩⟩

/-- A table that is too long is the first thing in an encoding that does not fit. -/
theorem encode_full (hb : b.encode = .ok bytes) {ys : Array Binding} (hsize : capacity 2 ≤ ys.size) :
    { b with externals := ys }.encode = .error (.tooLarge "external table" ys.size) := by
  obtain ⟨t, n, ps, ls, k, xs, c, is, ht, hn, hps, hls, -, -, hc, his, -⟩ := encode_eq_ok.1 hb
  have hfield : field "external table" 2 ys.size = .error (.tooLarge "external table" ys.size) :=
    if_neg (Nat.not_lt.2 hsize)
  simp only [encode, ht, hn, hps, hls, hfield]
  rfl

/-- The table of a body that can be encoded has room for another row, and all its rows can be written. -/
private theorem rows_of_encode (hb : b.encode = .ok bytes) :
    b.externals.size < maxExternals ∧ ∀ x ∈ b.externals, ∃ bytes, binding x = .ok bytes := by
  obtain ⟨-, -, -, -, k, xs, -, -, -, -, -, -, hk, hxs, -⟩ := encode_eq_ok.1 hb
  exact ⟨(field_eq_ok.1 hk).1, fun x hx => exists_of_concat_eq_ok hxs (Array.mem_toList_iff.2 hx)⟩

/-- A body that can be encoded can still be encoded after rows with short names were added, unless the table is full: it
takes one row more than the encoding has room for. -/
theorem bindAll_encode (hb : b.encode = .ok bytes) (hxs : ∀ x ∈ xs, x.name.utf8ByteSize ≤ 65535) :
    (b.bindAll xs =
      if b.externals.size + xs.length ≤ maxExternals then .ok { b with externals := b.externals ++ xs.toArray }
      else .error .tooManyExternals) ∧
    ∀ b', b.bindAll xs = .ok b' →
      (b'.externals.size < maxExternals → ∃ bytes', b'.encode = .ok bytes') ∧
      (b'.externals.size = maxExternals → b'.encode = .error (.tooLarge "external table" maxExternals)) := by
  obtain ⟨hsize, hrows⟩ := rows_of_encode hb
  have hbound := bindAll_eq b xs (Nat.le_of_lt hsize)
  refine ⟨hbound, fun b' hb' => ?_⟩
  rw [hbound] at hb'
  split at hb'
  · obtain rfl := Except.ok.inj hb'
    refine ⟨fun hfew => encode_rows hb (fun x hx => ?_) hfew, fun hfull => ?_⟩
    · rcases Array.mem_append.1 hx with hold | hnew
      · exact hrows x hold
      · exact exists_binding (hxs x (List.mem_toArray.1 hnew))
    · have herror := encode_full hb (Nat.le_of_eq hfull.symm)
      rwa [hfull] at herror
  · cases hb'

/-- A method that gives one. -/
def unit : Body where
  method := ⟨"Gauge", "unit"⟩
  signature := ⟨[], [], some .i32⟩
  entries := [⟨⟨0⟩, .ldcI4, [.immediate (.i32 1)]⟩, ⟨⟨1⟩, .ret, []⟩]
  nextId := 2

/-- A row for the values of a feed. -/
def reading : Binding := ⟨"Gauge.reading", .i32, .feed 0⟩

private theorem encode_unit : ∃ bytes, unit.encode = .ok bytes := ⟨_, rfl⟩

private theorem short_reading {n : Nat} {x : Binding} (hx : x ∈ List.replicate n reading) :
    x.name.utf8ByteSize ≤ 65535 := by
  rw [List.eq_of_mem_replicate hx]
  decide

private theorem room_for_readings {n : Nat} (hn : n ≤ maxExternals) :
    unit.externals.size + (List.replicate n reading).length ≤ maxExternals := by
  rwa [List.length_replicate, show unit.externals.size = 0 from rfl, Nat.zero_add]

private theorem size_readings (n : Nat) : (unit.externals ++ (List.replicate n reading).toArray).size = n := by
  simp [unit]

/-- With one row less than the table can have, the body can be encoded. -/
theorem bindAll_encode_unit : (∃ bytes, unit.encode = .ok bytes) ∧
    (∀ x ∈ List.replicate 65535 reading, x.name.utf8ByteSize ≤ 65535) ∧
    ∃ b' bytes', unit.bindAll (List.replicate 65535 reading) = .ok b' ∧ b'.encode = .ok bytes' := by
  obtain ⟨bytes, hbytes⟩ := encode_unit
  obtain ⟨hbind, hencode⟩ := bindAll_encode hbytes fun _ => short_reading
  have hroom : 65535 ≤ maxExternals := by decide
  rw [if_pos (room_for_readings hroom)] at hbind
  have hfew : (unit.externals ++ (List.replicate 65535 reading).toArray).size < maxExternals := by
    rw [size_readings]
    decide
  obtain ⟨bytes', hbytes'⟩ := (hencode _ hbind).1 hfew
  exact ⟨⟨bytes, hbytes⟩, fun _ => short_reading, _, bytes', hbind, hbytes'⟩

/-- Rows can be added, without failure, to a body that can be encoded and no longer can afterwards. -/
theorem not_bindAll_encode : ¬ ∀ (b b' : Body) (xs : List Binding) (bytes : List UInt8), b.encode = .ok bytes →
    (∀ x ∈ xs, x.name.utf8ByteSize ≤ 65535) → b.bindAll xs = .ok b' → ∃ bytes', b'.encode = .ok bytes' := by
  intro h
  obtain ⟨bytes, hbytes⟩ := encode_unit
  have hsize : (unit.externals ++ (List.replicate 65536 reading).toArray).size = maxExternals := size_readings 65536
  have hbind := bindAll_eq unit (List.replicate 65536 reading) (by decide)
  have hroom : 65536 ≤ maxExternals := by decide
  rw [if_pos (room_for_readings hroom)] at hbind
  obtain ⟨bytes', hbytes'⟩ := h unit _ (List.replicate 65536 reading) bytes hbytes (fun _ => short_reading) hbind
  cases hbytes'.symm.trans (encode_full hbytes (Nat.le_of_eq hsize.symm))

end Body

end Graft

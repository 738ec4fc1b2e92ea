import Graft.Proofs.Assembly.Headers
import Graft.Proofs.Body.Content
import Mathlib.Data.List.Forall2

/-!
# Rows of listings

The lines of a listing behind the header are read as the labels and the rows of the body.

* `Listable` says that an instruction can be written in a listing so that it is read back.
* `foldlM_entries` reads the lines of instructions one by one, and `instruction_row` reads the operands.
-/

namespace Graft.Assembly

open Text Numeral

/-- The instruction has the operand that its opcode takes, and this is neither an external value, nor a label that names
nothing, nor the constant whose text is not read back. -/
inductive Listable (b : Body) : Instruction → Prop
  | bare {op : Opcode} (kind : op.operandKind = .none) : Listable b ⟨op, []⟩
  | constant {op : Opcode} {v : Value} (kind : op.operandKind = .immediate v.type) (readable : v ≠ .i64 Int64.minValue) :
      Listable b ⟨op, [.immediate v]⟩
  | slot {op : Opcode} {n : UInt16} (kind : op.operandKind = .index) : Listable b ⟨op, [.index n]⟩
  | branch {op : Opcode} {t : InstrId} {p : Nat} (kind : op.operandKind = .label) (named : b.positionOf? t = some p) :
      Listable b ⟨op, [.label t]⟩

variable {b : Body} {i : Instruction} {d : Draft} {l : Line}

/-! ### Lines of instructions -/

/-- The operand of an instruction as it is written, if there is one. -/
def operandToken (b : Body) (i : Instruction) : Option (List Char) := i.operands.head?.map (operandText b)

/-- The line of an instruction as it is read. -/
def rowText (b : Body) (i : Instruction) : List Char :=
  i.op.mnemonic.toList ++ i.operands.flatMap fun o => ' ' :: operandText b o

theorem Listable.token (h : Listable b i) {cs : List Char} (hcs : operandToken b i = some cs) : Token cs := by
  cases h with
  | bare => cases hcs
  | @constant op v =>
    obtain rfl : v.chars = cs := Option.some.inj hcs
    exact v.token_chars
  | @slot op n =>
    obtain rfl : decimal n.toNat = cs := Option.some.inj hcs
    exact token_decimal _
  | @branch op t p kind named =>
    have htext : operandText b (.label t) = labelAt p := by rw [operandText, named]
    obtain rfl : operandText b (.label t) = cs := Option.some.inj hcs
    exact htext ▸ token_labelAt p

/-- A row is one token or two. -/
theorem Listable.rowText_cases (h : Listable b i) :
    (operandToken b i = none ∧ rowText b i = i.op.mnemonic.toList) ∨
    ∃ cs, operandToken b i = some cs ∧ Token cs ∧ rowText b i = i.op.mnemonic.toList ++ ' ' :: cs := by
  have hone {o : Operand} (ho : i.operands = [o]) :
      operandToken b i = some (operandText b o) ∧ rowText b i = i.op.mnemonic.toList ++ ' ' :: operandText b o := by
    refine ⟨by rw [operandToken, ho]; rfl, ?_⟩
    rw [rowText, ho, List.flatMap_cons, List.flatMap_nil, List.append_nil]
  have hsome {o : Operand} (ho : i.operands = [o]) :
      ∃ cs, operandToken b i = some cs ∧ Token cs ∧ rowText b i = i.op.mnemonic.toList ++ ' ' :: cs :=
    ⟨_, (hone ho).1, h.token (hone ho).1, (hone ho).2⟩
  cases h with
  | bare => exact .inl ⟨rfl, List.append_nil _⟩
  | constant => exact .inr (hsome rfl)
  | slot => exact .inr (hsome rfl)
  | branch => exact .inr (hsome rfl)

private theorem Listable.mem_rowText (h : Listable b i) {c : Char} (hc : c ∈ rowText b i) : c ∈ plain ∨ c = ' ' := by
  have hmnemonic := i.op.token_mnemonic.plain c
  rcases h.rowText_cases with ⟨-, htext⟩ | ⟨cs, -, hcs, htext⟩
  · exact .inl (hmnemonic (htext ▸ hc))
  · rw [htext, List.mem_append, List.mem_cons] at hc
    rcases hc with hc | rfl | hc
    · exact .inl (hmnemonic hc)
    · exact .inr rfl
    · exact .inl (hcs.plain c hc)

theorem Listable.not_mem_rowText (h : Listable b i) {c : Char} (hc : c ∈ marks) : c ∉ rowText b i := by
  intro hmem
  rcases h.mem_rowText hmem with hplain | rfl
  · exact (plain_spec c hplain).2 hc
  · exact absurd hc (by decide)

/-- A row stays as it is, but for the spaces in front. -/
theorem Listable.prints (h : Listable b i) : Prints (instrLine b i) (rowText b i) := by
  have hspaces : ∀ c ∈ "    ".toList, c = ' ' := List.all_iff_forall_prop.1 (by decide)
  have hmnemonic := i.op.token_mnemonic
  have htrimmed : Trimmed (rowText b i) := by
    rcases h.rowText_cases with ⟨-, htext⟩ | ⟨cs, -, hcs, htext⟩
    · exact htext ▸ hmnemonic.trimmed
    · exact htext ▸ hmnemonic.trimmed.append hcs.trimmed hmnemonic.ne_nil hcs.ne_nil ' '
  have hline : instrLine b i = "    ".toList ++ rowText b i := List.append_assoc ..
  rw [hline]
  refine prints_append hspaces (fun c hc => h.not_mem_rowText ?_) (unslashed_of_not_mem (h.not_mem_rowText (by decide)))
    htrimmed (List.append_ne_nil_of_left_ne_nil hmnemonic.ne_nil _)
  rcases List.mem_pair.1 hc with rfl | rfl <;> decide

/-- A row is not a directive. -/
theorem head?_rowText (b : Body) (i : Instruction) : (rowText b i).head? ≠ some '.' := by
  rw [rowText, List.head?_append_of_ne_nil _ i.op.token_mnemonic.ne_nil]
  exact i.op.head?_mnemonic

/-- A row adds its opcode and its operand to a draft. -/
theorem Listable.addLine (h : Listable b i) (hl : l.code = rowText b i) (d : Draft) :
    d.addLine l = .ok { d with rows := d.rows ++ [⟨i.op, operandToken b i, l⟩] } := by
  have hlocals : after? ".locals".toList l.code = none := after?_eq_none (hl ▸ head?_rowText b i)
  have hcolon : before? ':' l.code = none := by
    rw [hl]
    exact before?_eq_none fun hlast => h.not_mem_rowText (by decide) (List.mem_of_getLast? hlast)
  unfold Draft.addLine
  rw [hlocals, hcolon]
  dsimp only
  unfold Draft.addRow
  rw [hl]
  rcases h.rowText_cases with ⟨hnone, htext⟩ | ⟨cs, hsome, hcs, htext⟩
  · rw [htext, i.op.token_mnemonic.words_eq, hnone]
    dsimp only
    rw [i.op.ofText?_mnemonic]
  · rw [htext, i.op.token_mnemonic.words_pair hcs, hsome]
    dsimp only
    rw [i.op.ofText?_mnemonic]

/-- A row is read as its instruction, with a label on the identity that is the position of the old one. -/
def positional (b : Body) (i : Instruction) : Instruction :=
  { i with operands := i.operands.map (Operand.relabel fun t => ⟨(b.positionOf? t).getD 0⟩) }

/-- The operand of a row is read as the one that it was written for, if all labels are there. -/
theorem Listable.instruction (h : Listable b i) {labels : List (List Char × Nat)}
    (hlabels : ∀ p, b.target? i = some p → labels.lookup (labelName p) = some p) (l : Line) :
    Draft.instruction labels ⟨i.op, operandToken b i, l⟩ = .ok (positional b i) := by
  cases h with
  | bare kind =>
    simp only [Draft.instruction, kind]
    rfl
  | @constant op v kind readable =>
    have htoken : operandToken b ⟨op, [.immediate v]⟩ = some v.chars := rfl
    simp only [Draft.instruction, kind, htoken, Value.ofText?_chars readable]
    rfl
  | @slot op n kind =>
    have htoken : operandToken b ⟨op, [.index n]⟩ = some (decimal n.toNat) := rfl
    simp only [Draft.instruction, kind, htoken, slot?_decimal]
    rfl
  | @branch op t p kind named =>
    have htoken : operandToken b ⟨op, [.label t]⟩ = some ('@' :: labelName p) := by
      rw [← labelAt_eq]
      show some (operandText b (.label t)) = _
      rw [operandText, named]
    have htarget : b.target? ⟨op, [.label t]⟩ = some p := named
    have hread : positional b ⟨op, [.label t]⟩ = ⟨op, [.label ⟨p⟩]⟩ := by
      simp only [positional, List.map_cons, List.map_nil, Operand.relabel, named, Option.getD_some]
    simp only [Draft.instruction, kind, htoken, hlabels p htarget, hread]

/-! ### Labels -/

/-- The labels of the positions before `n`. -/
def labelsBelow (b : Body) (n : Nat) : List (List Char × Nat) :=
  ((List.range n).filter fun p => decide (p ∈ targets b)).map fun p => (labelName p, p)

theorem lookup_labelsBelow (b : Body) (n p : Nat) :
    (labelsBelow b n).lookup (labelName p) = if p < n ∧ p ∈ targets b then some p else none := by
  have hlookup (ps : List Nat) : (ps.map fun p => (labelName p, p)).lookup (labelName p) =
      if p ∈ ps then some p else none := by
    induction ps with
    | nil => rfl
    | cons q ps ih =>
      rw [List.map_cons, List.lookup_cons, ih]
      by_cases hpq : p = q
      · subst hpq
        simp
      · have hne : (labelName p == labelName q) = false := beq_eq_false_iff_ne.2 fun h => hpq (labelName_inj h)
        simp [hne, hpq]
  rw [labelsBelow, hlookup]
  simp

theorem labelsBelow_succ (b : Body) (n : Nat) :
    labelsBelow b (n + 1) = labelsBelow b n ++ if n ∈ targets b then [(labelName n, n)] else [] := by
  rw [labelsBelow, List.range_succ, List.filter_append, List.map_append]
  by_cases hn : n ∈ targets b <;> simp [labelsBelow, hn]

theorem head?_labelLine (p : Nat) : (labelAt p ++ [':']).head? = some '@' := rfl

/-- The line of a label stays as it is. -/
theorem prints_label (p : Nat) : Prints (labelAt p ++ [':']) (labelAt p ++ [':']) := by
  have hmarks {c : Char} (hc : c ∈ marks) (hne : c ≠ ':') : c ∉ labelAt p ++ [':'] := by
    rw [List.mem_append, List.mem_singleton, not_or]
    exact ⟨(token_labelAt p).not_mem hc, hne⟩
  refine prints_self (fun c hc => ?_) (unslashed_of_not_mem (hmarks (by decide) (by decide))) ?_ (List.cons_ne_nil _ _)
  · rcases List.mem_pair.1 hc with rfl | rfl
    · exact hmarks (by decide) (by decide)
    · exact hmarks (by decide) (by decide)
  · refine trimmed_append_singleton (fun c hc => ?_) rfl
    obtain rfl := Option.some.inj ((head?_labelLine p).symm.trans hc)
    rfl

/-- The line of a label adds the label to a draft, if it is new. -/
theorem addLine_label {p : Nat} (hl : l.code = labelAt p ++ [':']) (hnew : d.labels.lookup (labelName p) = none) :
    d.addLine l = .ok { d with labels := d.labels ++ [(labelName p, d.rows.length)] } := by
  have hlocals : after? ".locals".toList l.code = none := by
    refine after?_eq_none ?_
    rw [hl, head?_labelLine]
    decide
  have hcolon : before? ':' l.code = some (labelAt p) := hl ▸ before?_append ..
  rw [Draft.addLine, hlocals, hcolon]
  show d.addLabel l (labelAt p) = _
  rw [labelAt_eq, labelName] at *
  rw [Draft.addLabel, hnew]
  rfl

/-! ### All rows -/

/-- The lines of the instruction at a position as they are read. -/
def entryTexts (b : Body) (p : Nat) (i : Instruction) : List (List Char) :=
  if p ∈ targets b then [labelAt p ++ [':'], rowText b i] else [rowText b i]

/-- The row of an instruction. -/
def RowOf (b : Body) (i : Instruction) (r : Row) : Prop := r.op = i.op ∧ r.operand = operandToken b i

variable {n : Nat} {ls : List Line}

/-- The lines of one instruction add its label, if there is one, and its row. -/
private theorem foldlM_entry (hi : Listable b i) (hls : ls.map Line.code = entryTexts b n i)
    (hrows : d.rows.length = n) (hlabels : d.labels = labelsBelow b n) :
    ∃ r, RowOf b i r ∧ ls.foldlM Draft.addLine d =
      .ok { d with rows := d.rows ++ [r], labels := labelsBelow b (n + 1) } := by
  -- a label is given the number of rows so far, and that is the position of the next row
  rw [labelsBelow_succ]
  unfold entryTexts at hls
  by_cases hn : n ∈ targets b
  · rw [if_pos hn] at hls ⊢
    obtain ⟨l, ls, rfl, hl, hls⟩ := List.map_eq_cons_iff.1 hls
    obtain ⟨l', ls, rfl, hl', hls⟩ := List.map_eq_cons_iff.1 hls
    obtain rfl := List.map_eq_nil_iff.1 hls
    have hnew : d.labels.lookup (labelName n) = none := by
      rw [hlabels, lookup_labelsBelow, if_neg fun h => Nat.lt_irrefl n h.1]
    refine ⟨⟨i.op, operandToken b i, l'⟩, ⟨rfl, rfl⟩, ?_⟩
    rw [List.foldlM_cons, addLine_label hl hnew, hlabels, hrows]
    show List.foldlM Draft.addLine { d with labels := labelsBelow b n ++ [(labelName n, n)] } [l'] = _
    rw [List.foldlM_cons, hi.addLine hl']
    rfl
  · rw [if_neg hn] at hls ⊢
    obtain ⟨l, ls, rfl, hl, hls⟩ := List.map_eq_cons_iff.1 hls
    obtain rfl := List.map_eq_nil_iff.1 hls
    refine ⟨⟨i.op, operandToken b i, l⟩, ⟨rfl, rfl⟩, ?_⟩
    rw [List.foldlM_cons, hi.addLine hl, List.append_nil, ← hlabels]
    rfl

/-- The lines of instructions are read one by one, where `n` is the position of the first one. -/
theorem foldlM_entries {is : List Instruction} (his : ∀ i ∈ is, Listable b i)
    (hls : ls.map Line.code = (is.zipIdx n).flatMap fun (i, p) => entryTexts b p i) (hrows : d.rows.length = n)
    (hlabels : d.labels = labelsBelow b n) :
    ∃ rows, List.Forall₂ (RowOf b) is rows ∧ ls.foldlM Draft.addLine d =
      .ok { d with rows := d.rows ++ rows, labels := labelsBelow b (n + is.length) } := by
  -- before the line of position `n` the draft has `n` rows and the labels of the positions before
  induction is generalizing n d ls with
  | nil =>
    obtain rfl := List.map_eq_nil_iff.1 hls
    refine ⟨[], .nil, ?_⟩
    rw [List.append_nil, List.length_nil, Nat.add_zero, ← hlabels]
    rfl
  | cons i is ih =>
    rw [List.zipIdx_cons, List.flatMap_cons] at hls
    obtain ⟨ls₁, ls₂, rfl, hls₁, hls₂⟩ := List.map_eq_append_iff.1 hls
    obtain ⟨r, hr, hfirst⟩ := foldlM_entry (his i List.mem_cons_self) hls₁ hrows hlabels
    obtain ⟨rows, hrest, hfold⟩ := ih (d := { d with rows := d.rows ++ [r], labels := labelsBelow b (n + 1) })
      (fun j hj => his j (List.mem_cons_of_mem i hj)) hls₂ (by rw [List.length_append, hrows]; rfl) rfl
    refine ⟨r :: rows, .cons hr hrest, ?_⟩
    rw [List.foldlM_append, hfirst]
    refine hfold.trans ?_
    rw [List.length_cons, List.append_assoc, List.singleton_append, Nat.add_right_comm, Nat.add_assoc]

end Graft.Assembly

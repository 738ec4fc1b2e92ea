import Graft.Assembly.Reader
import Graft.Proofs.Failure
import Graft.Proofs.Text.Pieces

/-!
# Methods in the making

What a text has been read as when no step of reading it has failed.

* `bodies_eq_ok` and `sections_spec` say how a text falls into methods.
* `Draft.addLine_cases` says what a line adds to a draft, and `Draft.assemble_eq_ok` what becomes of it.
-/

namespace Graft.Assembly

open Text

/-! ### Lines -/

namespace Line

variable {l : Line} {src : List Char}

/-- The types that a line declares the locals to have. -/
def locals? (l : Line) : Option (List ValueType) :=
  (after? ".locals".toList l.code).bind fun list => (readTypes list).toOption

/-- The name of the label that a line defines. -/
def label? (l : Line) : Option (List Char) :=
  match after? ".locals".toList l.code, before? ':' l.code with
  | none, some ('@' :: name) => some name
  | _, _ => none

/-- Whether a line holds an instruction: it declares no locals and defines no label. -/
def isRow (l : Line) : Bool := (after? ".locals".toList l.code).isNone && (before? ':' l.code).isNone

theorem isRow_of_label? {name : List Char} (h : l.label? = some name) : l.isRow = false := by
  unfold label? at h
  split at h
  · rename_i hcolon
    rw [isRow, hcolon, Option.isNone_some, Bool.and_false]
  · cases h

/-- The row that a line holds: a mnemonic, and at most one operand behind it. -/
def Holds (l : Line) (r : Row) : Prop :=
  r.line = l ∧ ∃ word, words l.code = word :: r.operand.toList ∧ Opcode.ofText? word = some r.op

/-- A line that is read holds a word. -/
theorem words_ne_nil (h : l ∈ ofText src) : words l.code ≠ [] := by
  obtain ⟨hl, hcode⟩ := List.mem_filter.1 h
  obtain ⟨⟨raw, n⟩, -, rfl⟩ := List.mem_map.1 hl
  have htrimmed : Trimmed (uncommented raw) := trimmed_trim _
  intro hnil
  dsimp only at hcode hnil
  cases hcs : uncommented raw with
  | nil =>
    rw [hcs] at hcode
    cases hcode
  | cons c cs =>
    rw [hcs] at htrimmed hnil
    have hblank : isBlank c = false := htrimmed.head c rfl
    unfold words at hnil
    simp only [hblank, Bool.false_eq_true, if_false] at hnil
    split at hnil
    · cases hnil
    · split at hnil
      · cases hnil
      · split at hnil <;> cases hnil

theorem kind_of_locals {list : List Char} (h : after? ".locals".toList l.code = some list) :
    l.isRow = false ∧ l.label? = none ∧ l.locals? = (readTypes list).toOption := by
  rw [isRow, label?, locals?, h]
  exact ⟨rfl, rfl, rfl⟩

theorem kind_of_label {name : List Char} (hlocals : after? ".locals".toList l.code = none)
    (h : before? ':' l.code = some ('@' :: name)) : l.isRow = false ∧ l.label? = some name ∧ l.locals? = none := by
  rw [isRow, label?, locals?, hlocals, h]
  exact ⟨rfl, rfl, rfl⟩

theorem kind_of_row (hlocals : after? ".locals".toList l.code = none) (h : before? ':' l.code = none) :
    l.isRow = true ∧ l.label? = none ∧ l.locals? = none := by
  rw [isRow, label?, locals?, hlocals, h]
  exact ⟨rfl, rfl, rfl⟩

end Line

/-! ### Sections -/

section Sections

variable {l : Line} {ls before : List Line} {secs : List Section}

theorem sections_cons_header {header : List Char} (h : l.header? = some header) :
    sections (l :: ls) = ([], ⟨header, l, (sections ls).1⟩ :: (sections ls).2) := by
  rw [sections]
  dsimp only
  rw [h]

theorem sections_cons (h : l.header? = none) : sections (l :: ls) = (l :: (sections ls).1, (sections ls).2) := by
  rw [sections]
  dsimp only
  rw [h]

/-- A section is one method: its first line opens it, and no line behind that opens another one. -/
structure Section.Whole (s : Section) : Prop where
  opening : s.opening.header? = some s.header
  rest : ∀ l ∈ s.rest, l.header? = none

/-- The lines of a section. -/
def Section.lines (s : Section) : List Line := s.opening :: s.rest

/-- Sections are the lines of one method each, in their order. -/
theorem sections_spec (h : sections ls = (before, secs)) :
    ls = before ++ secs.flatMap Section.lines ∧ (∀ l ∈ before, l.header? = none) ∧ ∀ s ∈ secs, s.Whole := by
  induction ls generalizing before secs with
  | nil =>
    obtain ⟨rfl, rfl⟩ := Prod.mk.inj h
    exact ⟨rfl, nofun, nofun⟩
  | cons l ls ih =>
    obtain ⟨hlines, hbefore, hwhole⟩ := ih (rfl : sections ls = ((sections ls).1, (sections ls).2))
    cases hl : l.header? with
    | none =>
      rw [sections_cons hl] at h
      obtain ⟨rfl, rfl⟩ := Prod.mk.inj h
      exact ⟨congrArg (l :: ·) hlines, List.forall_mem_cons.2 ⟨hl, hbefore⟩, hwhole⟩
    | some header =>
      rw [sections_cons_header hl] at h
      obtain ⟨rfl, rfl⟩ := Prod.mk.inj h
      exact ⟨congrArg (l :: ·) hlines, nofun, List.forall_mem_cons.2 ⟨⟨hl, hbefore⟩, hwhole⟩⟩

/-- Lines that open no method belong to the method before them. -/
theorem sections_append_left {ls' : List Line} (h : ∀ l ∈ ls, l.header? = none) :
    sections (ls ++ ls') = (ls ++ (sections ls').1, (sections ls').2) := by
  induction ls with
  | nil => rfl
  | cons l ls ih =>
    have hrest := ih fun l' hl' => h l' (List.mem_cons_of_mem l hl')
    rw [List.cons_append, sections_cons (h l List.mem_cons_self), hrest]
    rfl

/-- Lines that begin with a method do not belong to the method before them. -/
theorem sections_append {ls' : List Line} (h : (sections ls').1 = []) :
    sections (ls ++ ls') = ((sections ls).1, (sections ls).2 ++ (sections ls').2) := by
  induction ls with
  | nil => exact Prod.ext h rfl
  | cons l ls ih =>
    rw [List.cons_append]
    cases hl : l.header? with
    | none => rw [sections_cons hl, sections_cons hl, ih]
    | some header =>
      rw [sections_cons_header hl, sections_cons_header hl, ih]
      rfl

/-- The lines of methods fall into these methods again. -/
theorem sections_flatMap_lines (h : ∀ s ∈ secs, s.Whole) : sections (secs.flatMap Section.lines) = ([], secs) := by
  induction secs with
  | nil => rfl
  | cons s secs ih =>
    obtain ⟨hopening, hrest⟩ := h s List.mem_cons_self
    rw [List.flatMap_cons, Section.lines, List.cons_append, sections_cons_header hopening, sections_append_left hrest,
      ih fun s' hs' => h s' (List.mem_cons_of_mem s hs'), List.append_nil]

end Sections

/-- A text is read if it has lines, all of them belong to methods, and each of these is read. -/
theorem bodies_eq_ok {src : List Char} {bs : List Body} : bodies src = .ok bs ↔ Line.ofText src ≠ [] ∧
    ∃ secs, sections (Line.ofText src) = ([], secs) ∧ List.Forall₂ (fun s b => Section.body s = .ok b) secs bs := by
  unfold bodies
  cases Line.ofText src with
  | nil => simp
  | cons l ls =>
    dsimp only
    rcases hsections : sections (l :: ls) with ⟨_ | ⟨stray, before⟩, secs⟩
    · simp [mapM_eq_ok_iff]
    · simp

/-! ### Drafts -/

namespace Draft

variable {d d' : Draft} {l : Line} {r : Row} {labels : List (List Char × Nat)} {i : Instruction} {b : Body}

/-- A line declares the locals of a method that has no rows yet, defines a label that is new, or adds a row. -/
theorem addLine_cases (h : d.addLine l = .ok d') :
    (l.isRow = false ∧ l.label? = none ∧ d.rows = [] ∧ ∃ types, l.locals? = some types ∧
      d' = { d with signature := { d.signature with locals := types } }) ∨
    (l.isRow = false ∧ l.locals? = none ∧ ∃ name, l.label? = some name ∧ d.labels.lookup name = none ∧
      d' = { d with labels := d.labels ++ [(name, d.rows.length)] }) ∨
    (l.isRow = true ∧ l.label? = none ∧ l.locals? = none ∧ (words l.code = [] ∧ d' = d ∨
      ∃ r, l.Holds r ∧ d' = { d with rows := d.rows ++ [r] })) := by
  unfold addLine at h
  split at h
  · rename_i list hlocals
    obtain ⟨hrow, hlabel, hdeclared⟩ := Line.kind_of_locals hlocals
    unfold setLocals at h
    split at h
    · rename_i hempty
      split at h
      · rename_i types htypes
        rw [htypes] at hdeclared
        exact .inl ⟨hrow, hlabel, List.isEmpty_iff.1 hempty, types, hdeclared, (Except.ok.inj h).symm⟩
      · cases h
    · cases h
  · rename_i hlocals
    split at h
    · rename_i text hcolon
      unfold addLabel at h
      split at h
      · rename_i c cs
        obtain ⟨hrow, hlabel, hdeclared⟩ := Line.kind_of_label hlocals hcolon
        split at h
        · cases h
        · rename_i hnew
          have hnone : d.labels.lookup (c :: cs) = none := Option.not_isSome_iff_eq_none.1 hnew
          exact .inr (.inl ⟨hrow, hdeclared, c :: cs, hlabel, hnone, (Except.ok.inj h).symm⟩)
      · cases h
    · rename_i hcolon
      obtain ⟨hrow, hlabel, hdeclared⟩ := Line.kind_of_row hlocals hcolon
      refine .inr (.inr ⟨hrow, hlabel, hdeclared, ?_⟩)
      unfold addRow at h
      split at h
      · rename_i hwords
        exact .inl ⟨hwords, (Except.ok.inj h).symm⟩
      · rename_i word operands hwords
        split at h
        · cases h
        · rename_i op hop
          split at h
          · exact .inr ⟨⟨op, none, l⟩, ⟨rfl, word, hwords, hop⟩, (Except.ok.inj h).symm⟩
          · rename_i o
            exact .inr ⟨⟨op, some o, l⟩, ⟨rfl, word, hwords, hop⟩, (Except.ok.inj h).symm⟩
          · cases h

/-- No line of a method changes which method it is, or its signature apart from the locals. -/
theorem addLine_keeps (h : d.addLine l = .ok d') : d'.method = d.method ∧
    { d'.signature with locals := [] } = { d.signature with locals := [] } := by
  rcases addLine_cases h with ⟨-, -, -, types, -, rfl⟩ | ⟨-, -, name, -, -, rfl⟩ | ⟨-, -, -, ⟨-, rfl⟩ | ⟨r, -, rfl⟩⟩
  all_goals exact ⟨rfl, rfl⟩

/-- A draft is assembled if each label stands before a row and each row is read. -/
theorem assemble_eq_ok : d.assemble = .ok b ↔ (∀ e ∈ d.labels, e.2 < d.rows.length) ∧
    ∃ instrs, List.Forall₂ (fun r i => instruction d.labels r = .ok i) d.rows instrs ∧
      b = { method := d.method, signature := d.signature, entries := instrs.zipIdx.map fun x => ⟨⟨x.2⟩, x.1⟩,
            nextId := instrs.length } := by
  unfold assemble
  split
  · rename_i e hfind
    have hlate : ¬ ∀ e ∈ d.labels, e.2 < d.rows.length := by
      intro hall
      have hlt := hall _ (List.mem_of_find?_eq_some hfind)
      have hle := List.find?_some hfind
      simp only [decide_eq_true_eq] at hle
      omega
    constructor
    · intro h
      cases h
    · exact fun h => absurd h.1 hlate
  · rename_i hfind
    have hall : ∀ e ∈ d.labels, e.2 < d.rows.length := by
      intro e he
      have hle := List.find?_eq_none.1 hfind e he
      simp only [decide_eq_true_eq] at hle
      omega
    simp only [bind_eq_ok, mapM_eq_ok_iff]
    constructor
    · rintro ⟨instrs, hinstrs, hb⟩
      exact ⟨hall, instrs, hinstrs, (Except.ok.inj hb).symm⟩
    · rintro ⟨-, instrs, hinstrs, rfl⟩
      exact ⟨instrs, hinstrs, rfl⟩

end Draft

/-- A method is read if its header and its lines are, and the draft that these give can be assembled. -/
theorem Section.body_eq_ok {s : Section} {b : Body} : s.body = .ok b ↔ ∃ id sig d, readHeader s.header = .ok (id, sig) ∧
    s.rest.foldlM Draft.addLine { opening := s.opening, method := id, signature := sig } = .ok d ∧
    d.assemble = .ok b := by
  unfold Section.body
  cases readHeader s.header with
  | error fault => simp
  | ok parts =>
    obtain ⟨id, sig⟩ := parts
    simp [bind_eq_ok]

/-- The operands that are written behind an opcode, where `names` says which positions labels name. -/
inductive Operands (names : List Char → Nat → Prop) : OperandKind → List (List Char) → List Operand → Prop
  | none : Operands names .none [] []
  | immediate {t : ValueType} {token : List Char} {v : Value} (value : Value.ofText? t token = some v) :
      Operands names (.immediate t) [token] [.immediate v]
  | index {token : List Char} {n : UInt16} (slot : Draft.slot? token = some n) :
      Operands names .index [token] [.index n]
  | label {name : List Char} {n : Nat} (named : names name n) :
      Operands names .label ['@' :: name] [.label ⟨n⟩]

theorem Operands.mono {P Q : List Char → Nat → Prop} {kind : OperandKind} {tokens : List (List Char)}
    {operands : List Operand} (h : Operands P kind tokens operands) (hPQ : ∀ name n, P name n → Q name n) :
    Operands Q kind tokens operands := by
  cases h with
  | none => exact .none
  | immediate value => exact .immediate value
  | index slot => exact .index slot
  | label named => exact .label (hPQ _ _ named)

theorem Draft.operands_of_instruction {labels : List (List Char × Nat)} {r : Row} {i : Instruction}
    (h : instruction labels r = .ok i) : i.op = r.op ∧
      Operands (fun name n => labels.lookup name = some n) i.op.operandKind r.operand.toList i.operands := by
  obtain ⟨op, operand, line⟩ := r
  unfold instruction at h
  dsimp only at h ⊢
  split at h
  · rename_i hkind
    obtain rfl := Except.ok.inj h
    exact ⟨rfl, hkind ▸ .none⟩
  · cases h
  · cases h
  · rename_i t token hkind
    split at h
    · rename_i v hv
      obtain rfl := Except.ok.inj h
      exact ⟨rfl, hkind ▸ .immediate hv⟩
    · cases h
  · rename_i token hkind
    split at h
    · rename_i n hn
      obtain rfl := Except.ok.inj h
      exact ⟨rfl, hkind ▸ .index hn⟩
    · cases h
  · rename_i name hkind
    split at h
    · rename_i pos hpos
      obtain rfl := Except.ok.inj h
      exact ⟨rfl, hkind ▸ .label hpos⟩
    · cases h
  · cases h
  · cases h

end Graft.Assembly

import Graft.Proofs.Assembly.Headers
import Graft.Proofs.Body.Numbering
import Graft.Proofs.Typing.Causes
import Graft.Proofs.Typing.Encodable

/-!
# Structure of bodies that were read

A body that was read from a text has the instructions that stand in its method, in their order and with the operands that
their opcodes take; a branch goes to the first instruction behind its label (`bodies_describe`).

* `Section.Describes` says how the lines of a method determine its body.
* `Draft.Collects` is kept by every line: the draft has the rows and labels of the lines so far.
-/

namespace Graft.Assembly

/-! ### Lines and what they describe -/

namespace Section

/-- The lines of a method that hold its instructions. -/
def rows (s : Section) : List Line := s.rest.filter Line.isRow

/-- The label is defined in the method, there is an instruction behind its definition, and the first one of these is at
position `n`. -/
def LabelAt (s : Section) (name : List Char) (n : Nat) : Prop :=
  ∃ before l after row, s.rest = before ++ l :: after ∧ l.label? = some name ∧ after.find? Line.isRow = some row ∧
    (before.filter Line.isRow).length = n

/-- The instruction is the one that is written on the line. -/
def Reads (s : Section) (l : Line) (i : Instruction) : Prop :=
  ∃ word tokens, Text.words l.code = word :: tokens ∧ Opcode.ofText? word = some i.op ∧
    Operands s.LabelAt i.op.operandKind tokens i.operands

/-- The body that is written in the lines of a method. -/
structure Describes (s : Section) (b : Body) : Prop where
  header : readHeader s.header = .ok (b.method, { b.signature with locals := [] })
  /-- The last declaration of locals counts. -/
  locals : b.signature.locals = (s.rest.filterMap Line.locals?).getLast?.getD []
  /-- No label is defined twice. -/
  labels : (s.rest.filterMap Line.label?).Nodup
  instrs : List.Forall₂ s.Reads s.rows b.instrs
  ids : b.entries.map Entry.id = (List.range s.rows.length).map InstrId.mk
  nextId : b.nextId = s.rows.length
  externals : b.externals = #[]
  revision : b.revision = none

end Section

/-! ### Drafts -/

namespace Draft

variable {d d' : Draft} {l : Line} {ls done : List Line} {src : List Char}

/-- The draft of a method holds what some of its lines say. -/
structure Collects (d : Draft) (ls : List Line) : Prop where
  rows : List.Forall₂ Line.Holds (ls.filter Line.isRow) d.rows
  labels : ∀ e ∈ d.labels, ∃ before l after, ls = before ++ l :: after ∧ l.label? = some e.1 ∧
    (before.filter Line.isRow).length = e.2
  names : d.labels.map Prod.fst = ls.filterMap Line.label?
  nodup : (d.labels.map Prod.fst).Nodup
  locals : d.signature.locals = (ls.filterMap Line.locals?).getLast?.getD []

/-- A label that stands in some lines stands there also if there are more of them. -/
private theorem Collects.mono_labels (h : d.Collects done) (l : Line) : ∀ e ∈ d.labels, ∃ before l' after,
    done ++ [l] = before ++ l' :: after ∧ l'.label? = some e.1 ∧ (before.filter Line.isRow).length = e.2 := by
  intro e he
  obtain ⟨before, l', after, rfl, hlabel, hlength⟩ := h.labels e he
  exact ⟨before, l', after ++ [l], by simp, hlabel, hlength⟩

/-- One more line keeps that the draft holds what the lines say. -/
theorem Collects.addLine (h : d.Collects done) (hwords : Text.words l.code ≠ []) (hadd : d.addLine l = .ok d') :
    d'.Collects (done ++ [l]) := by
  have hlater := h.mono_labels l
  obtain ⟨hrows, -, hnames, hnodup, hlocals⟩ := h
  rcases addLine_cases hadd with ⟨hrow, hlabel, -, types, htypes, rfl⟩ | ⟨hrow, hdeclared, name, hlabel, hnew, rfl⟩ |
    ⟨hrow, hlabel, hdeclared, ⟨hnil, -⟩ | ⟨r, hr, rfl⟩⟩
  · exact ⟨by simpa [hrow] using hrows, hlater, by simpa [hlabel] using hnames, hnodup, by simp [htypes]⟩
  · refine ⟨by simpa [hrow] using hrows, fun e he => ?_, by simp [hlabel, hnames], ?_, by simpa [hdeclared] using hlocals⟩
    · rcases List.mem_append.1 he with he | he
      · exact hlater e he
      · -- the new label stands before the next row
        obtain rfl := List.mem_singleton.1 he
        exact ⟨done, l, [], rfl, hlabel, hrows.length_eq⟩
    · have hfresh : ∀ e ∈ d.labels, e.1 ≠ name := by
        intro e he heq
        simpa [heq] using List.lookup_eq_none_iff.1 hnew e he
      simpa [List.nodup_append, hnodup] using hfresh
  · exact absurd hnil hwords
  · refine ⟨?_, hlater, by simpa [hlabel] using hnames, hnodup, by simpa [hdeclared] using hlocals⟩
    rw [List.filter_append, List.filter_cons_of_pos hrow, List.filter_nil]
    exact List.rel_append hrows (.cons hr .nil)

/-- All lines of a method together give a draft that holds what they say. -/
theorem collects_foldlM (hwords : ∀ l ∈ ls, Text.words l.code ≠ []) (h : d.Collects done)
    (hfold : ls.foldlM addLine d = .ok d') : d'.Collects (done ++ ls) := by
  induction ls generalizing d done with
  | nil =>
    obtain rfl := Except.ok.inj hfold
    simpa using h
  | cons l ls ih =>
    rw [List.foldlM_cons] at hfold
    obtain ⟨d₁, hadd, hfold⟩ := bind_eq_ok.1 hfold
    obtain ⟨hfirst, hrest⟩ := List.forall_mem_cons.1 hwords
    simpa using ih hrest (h.addLine hfirst hadd) hfold

/-- The rows of the draft of a whole method are read as the instructions that are written on its lines. -/
theorem Collects.reads {s : Section} {r : Row} {i : Instruction} (h : d.Collects s.rest)
    (hbound : ∀ e ∈ d.labels, e.2 < d.rows.length) (hl : l.Holds r) (hi : instruction d.labels r = .ok i) :
    s.Reads l i := by
  obtain ⟨-, word, hword, hop⟩ := hl
  obtain ⟨hsame, hoperands⟩ := operands_of_instruction hi
  refine ⟨word, r.operand.toList, hword, hsame ▸ hop, hoperands.mono fun name n hlookup => ?_⟩
  have hmem : (name, n) ∈ d.labels := by
    obtain ⟨before, after, hsplit, -⟩ := List.lookup_eq_some_iff.1 hlookup
    simp [hsplit]
  obtain ⟨before, l', after, hrest, hlabel, hlength⟩ := h.labels _ hmem
  have hlt := hbound _ hmem
  dsimp only at hlabel hlength hlt
  -- the rows before the label are fewer than all rows, so that there is one behind it
  have hrows : (after.filter Line.isRow) ≠ [] := by
    intro hnil
    have hall := h.rows.length_eq
    rw [hrest, List.filter_append, List.filter_cons_of_neg (by simp [Line.isRow_of_label? hlabel]), hnil,
      List.append_nil] at hall
    omega
  obtain ⟨row, hrow⟩ : ∃ row, after.find? Line.isRow = some row := by
    obtain ⟨row, hrow⟩ := List.exists_mem_of_ne_nil _ hrows
    obtain ⟨hmem, hkind⟩ := List.mem_filter.1 hrow
    exact Option.isSome_iff_exists.1 (List.find?_isSome.2 ⟨row, hmem, hkind⟩)
  exact ⟨before, l', after, row, hrest, hlabel, hrow, hlength⟩

end Draft

/-! ### Methods -/

/-- The body that a method is read as is the one that is written in its lines. -/
theorem Section.describes_of_body {s : Section} {b : Body} (hwords : ∀ l ∈ s.rest, Text.words l.code ≠ [])
    (h : s.body = .ok b) : s.Describes b := by
  obtain ⟨id, sig, d, hheader, hlines, hd⟩ := Section.body_eq_ok.1 h
  obtain ⟨-, -, params, returns, -, -, -, -, rfl⟩ := readHeader_eq_ok.1 hheader
  have hkept : d.method = id ∧ { d.signature with locals := [] } = (⟨params, [], returns⟩ : Signature) := by
    refine foldlM_keeps (P := fun d : Draft => d.method = id ∧
      { d.signature with locals := [] } = (⟨params, [], returns⟩ : Signature)) ?_ s.rest ⟨rfl, rfl⟩ hlines
    intro d l d' hkeeps hadd
    obtain ⟨hmethod, hsignature⟩ := Draft.addLine_keeps hadd
    exact ⟨hmethod.trans hkeeps.1, hsignature.trans hkeeps.2⟩
  have hopened : Draft.Collects ⟨s.opening, id, ⟨params, [], returns⟩, [], []⟩ [] := ⟨.nil, nofun, rfl, .nil, rfl⟩
  have hcollects : d.Collects s.rest := Draft.collects_foldlM hwords hopened hlines
  obtain ⟨hbound, instrs, hinstrs, rfl⟩ := Draft.assemble_eq_ok.1 hd
  have hrows : s.rows.length = instrs.length := hcollects.rows.length_eq.trans hinstrs.length_eq
  constructor
  · rw [hheader, hkept.1, hkept.2]
  · exact hcollects.locals
  · rw [← hcollects.names]
    exact hcollects.nodup
  · have hread : List.Forall₂ s.Reads s.rows instrs :=
      forall₂_trans hcollects.rows hinstrs fun l r i hl hi => hcollects.reads hbound hl hi
    simpa [Body.instrs, List.map_map, Function.comp_def] using hread
  · rw [hrows]
    exact ids_of_zipIdx rfl
  · exact hrows.symm
  · rfl
  · rfl

/-- Written operands have the shape that the opcode takes, and are those of no call. -/
theorem Section.Reads.hasShape {s : Section} {l : Line} {i : Instruction} (h : s.Reads l i) :
    i.hasShape = true ∧ i.op ≠ .call := by
  obtain ⟨op, operands⟩ := i
  obtain ⟨word, tokens, -, -, hoperands⟩ := h
  dsimp only at hoperands ⊢
  constructor
  · unfold Instruction.hasShape
    dsimp only
    generalize op.operandKind = kind at hoperands
    cases hoperands with
    | none => rfl
    | immediate value => simp [Value.type_of_ofText? value]
    | index slot => rfl
    | label named => rfl
  · rintro rfl
    cases hoperands

/-- The labels of written branches resolve. -/
theorem Section.Describes.formed {s : Section} {b : Body} (h : s.Describes b) {i : Instruction} (hi : i ∈ b.instrs) :
    Typing.Formed b i ∧ i.op ≠ .call := by
  obtain ⟨l, -, hreads⟩ := exists_of_mem_right h.instrs hi
  refine ⟨⟨hreads.hasShape.1, fun t ht => ?_⟩, hreads.hasShape.2⟩
  obtain ⟨op, operands⟩ := i
  obtain ⟨word, tokens, -, -, hoperands⟩ := hreads
  dsimp only at hoperands
  generalize op.operandKind = kind at hoperands
  cases hoperands with
  | none | immediate | index => cases ht
  | @label name n named =>
    obtain rfl := Option.some.inj ht
    obtain ⟨before, l', after, row, hrest, hlabel, hrow, rfl⟩ := named
    have hlt : (before.filter Line.isRow).length < s.rows.length := by
      have hmem : row ∈ after.filter Line.isRow :=
        List.mem_filter.2 ⟨List.mem_of_find?_eq_some hrow, List.find?_some hrow⟩
      have hpos := List.length_pos_of_mem hmem
      rw [rows, hrest, List.filter_append, List.filter_cons_of_neg (by simp [Line.isRow_of_label? hlabel]),
        List.length_append]
      omega
    rw [h.ids]
    exact List.mem_map_of_mem (List.mem_range.2 hlt)

/-- A text that can be read falls into methods, and each body is the one that is written in the lines of its method: it has
one instruction for each line that holds one, in this order and with the identities 0, 1, 2, …; the operands have the shape
that the opcode takes; and a branch names the first instruction behind the definition of its label in the same method.
There is no call, no external value and no revision. So what verification finds is that the body is empty, that a slot is
missing, or something about control and stacks, and only a number that is too large keeps the body from being encoded. -/
theorem bodies_describe {src : List Char} {bs : List Body} (h : bodies src = .ok bs) :
    ∃ secs : List Section, Line.ofText src = secs.flatMap Section.lines ∧ (∀ s ∈ secs, s.Whole) ∧
      List.Forall₂ Section.Describes secs bs ∧
      ∀ b ∈ bs, (∀ i ∈ b.instrs, i.hasShape = true ∧ i.op ≠ .call) ∧ b.externals = #[] ∧ b.revision = none ∧
        (∀ v ∈ b.violations, ∃ f, Typing.Remaining b f ∧ v = f.violation) ∧
        ∀ err, b.encode = .error err → err.Oversized := by
  obtain ⟨-, secs, hsecs, hbodies⟩ := bodies_eq_ok.1 h
  obtain ⟨hlines, -, hwhole⟩ := sections_spec hsecs
  rw [List.nil_append] at hlines
  have hdescribes : List.Forall₂ Section.Describes secs bs := by
    refine ((List.forall₂_and_left _ _).2 ⟨fun _ hs => hs, hbodies⟩).imp ?_
    rintro s b ⟨hs, hbody⟩
    have hmem : ∀ l ∈ s.rest, l ∈ Line.ofText src := by
      intro l hl
      rw [hlines]
      exact List.mem_flatMap.2 ⟨s, hs, List.mem_cons_of_mem _ hl⟩
    exact Section.describes_of_body (fun l hl => Line.words_ne_nil (hmem l hl)) hbody
  refine ⟨secs, hlines, hwhole, hdescribes, fun b hb => ?_⟩
  obtain ⟨s, -, hs⟩ := exists_of_mem_right hdescribes hb
  refine ⟨fun i hi => ?_, hs.externals, hs.revision, fun v hv => ?_, fun err herr => ?_⟩
  · obtain ⟨hformed, hcall⟩ := hs.formed hi
    exact ⟨hformed.shape, hcall⟩
  · obtain ⟨f, hf, rfl⟩ := List.mem_map.1 hv
    exact ⟨f, Typing.findings_remaining (fun i hi => hs.formed hi) f hf, rfl⟩
  · exact Body.oversized_of_encode (fun i hi => (hs.formed hi).1) herr

/-- Two methods with a label of the same name; the first one has a branch forward, and two labels on one row. -/
def looping : List Char :=
  (".method A::f(bool)\nldarg 0\nbrtrue @end\n@top:\n@too:\nbr @top\n@end:\nret\n" ++
    ".method A::g()\n@top:\nldloc 7\nbr @top\n").toList

/-- Each branch goes to the label of its own method, and the missing slot is left to be found. -/
theorem bodies_describe_looping : ∃ secs bs, bodies looping = .ok bs ∧
    bs.map Body.entries = [
      [⟨⟨0⟩, .ldarg, [.index 0]⟩, ⟨⟨1⟩, .brtrue, [.label ⟨3⟩]⟩, ⟨⟨2⟩, .br, [.label ⟨2⟩]⟩, ⟨⟨3⟩, .ret, []⟩],
      [⟨⟨0⟩, .ldloc, [.index 7]⟩, ⟨⟨1⟩, .br, [.label ⟨0⟩]⟩]] ∧
    List.Forall₂ Section.Describes secs bs ∧
    ∀ b ∈ bs, ∀ v ∈ b.violations, ∃ f, Typing.Remaining b f ∧ v = f.violation := by
  have hentries : ((bodies looping).toOption.map fun bs => bs.map Body.entries) = some [
      [⟨⟨0⟩, .ldarg, [.index 0]⟩, ⟨⟨1⟩, .brtrue, [.label ⟨3⟩]⟩, ⟨⟨2⟩, .br, [.label ⟨2⟩]⟩, ⟨⟨3⟩, .ret, []⟩],
      [⟨⟨0⟩, .ldloc, [.index 7]⟩, ⟨⟨1⟩, .br, [.label ⟨0⟩]⟩]] := by decide +kernel
  obtain ⟨bs, hbs, hentries⟩ := Option.map_eq_some_iff.1 hentries
  have hread : bodies looping = .ok bs := toOption_eq_some.1 hbs
  obtain ⟨secs, -, -, hdescribes, hbodies⟩ := bodies_describe hread
  exact ⟨secs, bs, hread, hentries, hdescribes, fun b hb => (hbodies b hb).2.2.2.1⟩

end Graft.Assembly

import Graft.Proofs.Assembly.Rows
import Graft.Proofs.Body.Numbering

/-!
# Listings are read back

* `reassembled` is what a body becomes when its listing is read: the same body with its positions as identities
  (`code_reassembled`).
* `body_of_section` reads the lines of one listing, and `bodies_flatMap_listing` a text that was put together from
  listings.
-/

namespace Graft.Assembly

open Text

variable {b : Body}

/-! ### Texts of listings -/

/-- The lines of a listing behind the header as they are read. -/
def bodyTexts (b : Body) : List (List Char) :=
  localsLines b.signature ++ b.instrs.zipIdx.flatMap fun (i, p) => entryTexts b p i

/-- The lines of a listing as they are read. -/
def listingTexts (b : Body) : List (List Char) := headerLine b.method b.signature :: bodyTexts b

/-- The line with the types of the locals stays as it is. -/
private theorem prints_locals (ts : List ValueType) :
    Prints (".locals ".toList ++ typeList ts) (".locals ".toList ++ typeList ts) := by
  have hmem {c : Char} (hc : c ∈ ".locals ".toList ++ typeList ts) : c ∉ ['/', '#', '\n'] := by
    rcases List.mem_append.1 hc with hc | hc
    · have hword : ∀ c ∈ ".locals ".toList, c ∉ ['/', '#', '\n'] := List.all_iff_forall_prop.1 (by decide)
      exact hword c hc
    · exact fun hmem => not_mem_typeList hmem ts hc
  have hslashes : '/' ∉ ".locals ".toList ++ typeList ts := fun hslash => hmem hslash (by decide)
  refine prints_self (fun c hc hmark => hmem hmark (List.mem_cons_of_mem _ hc)) (unslashed_of_not_mem hslashes) ?_
    (List.append_ne_nil_of_right_ne_nil _ (List.cons_ne_nil _ _))
  rw [typeList, ← List.append_assoc]
  refine trimmed_append_singleton (fun c hc => ?_) rfl
  obtain rfl : '.' = c := Option.some.inj hc
  rfl

private theorem prints_entries {is : List Instruction} (his : ∀ i ∈ is, Listable b i) (n : Nat) :
    List.Forall₂ Prints ((is.zipIdx n).flatMap fun (i, p) => entryLines b (targets b) p i)
      ((is.zipIdx n).flatMap fun (i, p) => entryTexts b p i) := by
  induction is generalizing n with
  | nil => exact .nil
  | cons i is ih =>
    have hi := (his i List.mem_cons_self).prints
    have hentry : List.Forall₂ Prints (entryLines b (targets b) n i) (entryTexts b n i) := by
      unfold entryLines entryTexts
      split
      · exact .cons (prints_label n) (.cons hi .nil)
      · exact .cons hi .nil
    rw [List.zipIdx_cons, List.flatMap_cons, List.flatMap_cons]
    exact List.rel_append hentry (ih (fun j hj => his j (List.mem_cons_of_mem i hj)) (n + 1))

theorem prints_listing (hnamed : Named b.method) (his : ∀ i ∈ b.instrs, Listable b i) :
    List.Forall₂ Prints (listingLines b) (listingTexts b) := by
  refine .cons (prints_headerLine hnamed b.signature) (List.rel_append ?_ (prints_entries his 0))
  unfold localsLines
  split
  · exact .nil
  · exact .cons (prints_locals _) .nil

private theorem forall_of_prints {raws texts : List (List Char)} (h : List.Forall₂ Prints raws texts) :
    (∀ l ∈ raws, Prints l (Line.uncommented l)) ∧ raws.map Line.uncommented = texts := by
  induction h with
  | nil => exact ⟨fun _ hl => absurd hl List.not_mem_nil, rfl⟩
  | @cons raw text raws texts hraw _ ih =>
    constructor
    · intro l hl
      rcases List.mem_cons.1 hl with rfl | hl
      · exact hraw.reads.symm ▸ hraw
      · exact ih.1 l hl
    · rw [List.map_cons, hraw.reads, ih.2]

/-- Lines that are read as some texts are read as these when they are put together. -/
theorem codes_ofText {raws texts : List (List Char)} (h : List.Forall₂ Prints raws texts) :
    (Line.ofText (raws.flatMap fun l => l ++ ['\n'])).map Line.code = texts := by
  obtain ⟨hraws, htexts⟩ := forall_of_prints h
  have hlines : lines (raws.flatMap fun l => l ++ ['\n']) = raws :=
    lines_flatMap (fun l hl => (hraws l hl).oneLine) fun l hl => (hraws l hl).whole
  rw [Line.ofText, hlines, List.filter_eq_self.2]
  · rw [List.map_map, ← htexts]
    have hfst := congrArg (List.map Line.uncommented) (List.zipIdx_map_fst 0 raws)
    rw [List.map_map] at hfst
    exact hfst
  · intro l hl
    obtain ⟨⟨raw, n⟩, hraw, rfl⟩ := List.mem_map.1 hl
    have hnonempty := (hraws raw (List.fst_mem_of_mem_zipIdx hraw)).nonempty
    rw [Bool.not_eq_true', List.isEmpty_eq_false_iff]
    exact hnonempty

/-! ### One listing -/

/-- What a listing is read as: the body with the positions of its instructions as their identities. -/
def reassembled (b : Body) : Body where
  method := b.method
  signature := b.signature
  entries := (b.instrs.map (positional b)).zipIdx.map fun (i, n) => ⟨⟨n⟩, i⟩
  nextId := b.length

/-- Branches are read as they were written, when the labels of all positions that they go to are there. -/
private theorem forall₂_instruction {is : List Instruction} {rows : List Row} {labels : List (List Char × Nat)}
    (his : ∀ i ∈ is, Listable b i) (hrows : List.Forall₂ (RowOf b) is rows)
    (hlabels : ∀ i ∈ is, ∀ p, b.target? i = some p → labels.lookup (labelName p) = some p) :
    List.Forall₂ (fun r i => Draft.instruction labels r = .ok i) rows (is.map (positional b)) := by
  have hread : List.Forall₂ (fun i r => Draft.instruction labels r = .ok (positional b i)) is rows := by
    refine ((List.forall₂_and_left _ _).2 ⟨fun _ hi => hi, hrows⟩).imp ?_
    rintro i ⟨op, operand, l⟩ ⟨hi, rfl, rfl⟩
    exact (his i hi).instruction (hlabels i hi) l
  exact List.forall₂_map_right_iff.2 hread.flip

theorem lt_length_of_target? {i : Instruction} {p : Nat} (h : b.target? i = some p) : p < b.length := by
  obtain ⟨t, -, ht⟩ := Option.bind_eq_some_iff.1 h
  exact (List.findIdx?_eq_some_iff_getElem.1 ht).1

/-- The line with the types of the locals, if there is one, adds them to a draft without rows. -/
private theorem foldlM_locals {d : Draft} {ls : List Line} {sig : Signature} (hls : ls.map Line.code = localsLines sig)
    (hrows : d.rows = []) (hsig : d.signature = { sig with locals := [] }) :
    ls.foldlM Draft.addLine d = .ok { d with signature := sig } := by
  obtain ⟨params, locals, returns⟩ := sig
  cases locals with
  | nil =>
    obtain rfl := List.map_eq_nil_iff.1 hls
    rw [← hsig]
    rfl
  | cons t ts =>
    obtain ⟨l, ls, rfl, hl, hls⟩ := List.map_eq_cons_iff.1 hls
    obtain rfl := List.map_eq_nil_iff.1 hls
    have hafter : after? ".locals".toList l.code = some ([' '] ++ typeList (t :: ts)) := by
      rw [hl]
      exact after?_append ".locals".toList ([' '] ++ typeList (t :: ts))
    have hline : d.addLine l = .ok { d with signature := ⟨params, t :: ts, returns⟩ } := by
      rw [Draft.addLine, hafter]
      dsimp only
      rw [Draft.setLocals, hrows, readTypes_typeList isBlank_space, hsig]
      rfl
    rw [List.foldlM_cons, hline]
    rfl

/-- A draft with the labels and the rows of a body is assembled to that body. -/
private theorem assemble_eq {d : Draft} (his : ∀ i ∈ b.instrs, Listable b i) (hmethod : d.method = b.method)
    (hsignature : d.signature = b.signature) (hlabels : d.labels = labelsBelow b b.instrs.length)
    (hrows : List.Forall₂ (RowOf b) b.instrs d.rows) : d.assemble = .ok (reassembled b) := by
  have hbound : ∀ e ∈ d.labels, e.2 < d.rows.length := by
    rw [hlabels]
    intro e he
    obtain ⟨p, hp, rfl⟩ := List.mem_map.1 he
    have hlt := List.mem_range.1 (List.mem_filter.1 hp).1
    have hlength := hrows.length_eq
    omega
  -- operands are read when all labels are there, so that branches can go forward
  have hinstrs : List.Forall₂ (fun r i => Draft.instruction d.labels r = .ok i) d.rows
      (b.instrs.map (positional b)) := by
    rw [hlabels]
    refine forall₂_instruction his hrows fun i hi p hp => ?_
    rw [lookup_labelsBelow, if_pos]
    exact ⟨b.length_instrs ▸ lt_length_of_target? hp, List.mem_filterMap.2 ⟨i, hi, hp⟩⟩
  refine Draft.assemble_eq_ok.2 ⟨hbound, b.instrs.map (positional b), hinstrs, ?_⟩
  rw [reassembled, hmethod, hsignature, ← b.length_instrs, List.length_map]

/-- The lines of a listing are read as one body. -/
theorem body_of_section (his : ∀ i ∈ b.instrs, Listable b i) {s : Section}
    (hheader : readHeader s.header = .ok (b.method, ⟨b.signature.params, [], b.signature.returns⟩))
    (hrest : s.rest.map Line.code = bodyTexts b) : s.body = .ok (reassembled b) := by
  obtain ⟨opened, hopened⟩ : ∃ d : Draft,
      d = ⟨s.opening, b.method, ⟨b.signature.params, [], b.signature.returns⟩, [], []⟩ := ⟨_, rfl⟩
  obtain ⟨first, ls, hsplit, hfirst, hls⟩ := List.map_eq_append_iff.1 hrest
  have hlocals : first.foldlM Draft.addLine opened = .ok { opened with signature := b.signature } :=
    foldlM_locals hfirst (by rw [hopened]) (by rw [hopened])
  obtain ⟨rows, hrows, hfold⟩ := foldlM_entries (d := { opened with signature := b.signature }) his hls
    (by rw [hopened]; rfl) (by rw [hopened]; rfl)
  rw [Nat.zero_add] at hfold
  have hlines : s.rest.foldlM Draft.addLine opened =
      .ok ⟨s.opening, b.method, b.signature, labelsBelow b b.instrs.length, rows⟩ := by
    rw [hsplit, List.foldlM_append, hlocals]
    refine hfold.trans ?_
    rw [hopened]
    rfl
  exact Section.body_eq_ok.2 ⟨_, _, _, hheader, hopened ▸ hlines, assemble_eq his rfl rfl rfl hrows⟩

/-! ### What is read -/

theorem numbered_reassembled (b : Body) : (reassembled b).Numbered :=
  numbered_of_zipIdx rfl (by rw [List.length_map, b.length_instrs]; rfl)

private theorem instrs_reassembled (b : Body) : (reassembled b).instrs = b.instrs.map (positional b) := by
  have hfst := List.zipIdx_map_fst 0 (b.instrs.map (positional b))
  refine Eq.trans ?_ hfst
  rw [Body.instrs, reassembled, List.map_map]
  rfl

private theorem positionOf?_reassembled {p : Nat} (hp : p < b.length) : (reassembled b).positionOf? ⟨p⟩ = some p := by
  have hlt : p < (b.instrs.map (positional b)).length := by rwa [List.length_map, b.length_instrs]
  rw [Body.positionOf?_eq_some_iff (numbered_reassembled b), Body.id?, reassembled, List.getElem?_map,
    List.getElem?_zipIdx, List.getElem?_eq_getElem hlt]
  simp

/-- The body that is read has the same instructions, with all labels on the same positions. -/
theorem code_reassembled (his : ∀ i ∈ b.instrs, Listable b i) : (reassembled b).content.code = b.content.code := by
  have hinstr (i : Instruction) (hi : Listable b i) : (positional b i).resolve (reassembled b) = i.resolve b := by
    cases hi with
    | bare => rfl
    | constant => rfl
    | slot => rfl
    | @branch op t p kind named =>
      have htarget : b.target? ⟨op, [.label t]⟩ = some p := named
      have hposition := positionOf?_reassembled (lt_length_of_target? htarget)
      simp only [positional, Instruction.resolve, List.map_cons, List.map_nil, Operand.relabel, Operand.resolve, named,
        Option.getD_some, hposition]
  show (reassembled b).instrs.map _ = b.instrs.map _
  rw [instrs_reassembled, List.map_map]
  exact List.map_congr_left fun i hi => hinstr i (his i hi)

/-! ### Several listings -/

/-- Only the first line of a listing opens a method. -/
private theorem header?_eq_none {l : Line} (hl : l.code ∈ bodyTexts b) : l.header? = none := by
  rcases List.mem_append.1 hl with hl | hl
  · unfold localsLines at hl
    split at hl
    · cases hl
    · rw [Line.header?, List.mem_singleton.1 hl]
      rfl
  · obtain ⟨⟨i, p⟩, -, hl⟩ := List.mem_flatMap.1 hl
    refine after?_eq_none ?_
    dsimp only at hl
    unfold entryTexts at hl
    split at hl
    · rcases List.mem_pair.1 hl with hl | hl
      · rw [hl, head?_labelLine]
        decide
      · exact hl ▸ head?_rowText b i
    · exact List.mem_singleton.1 hl ▸ head?_rowText b i

/-- The lines of listings fall into one section for each of them. -/
private theorem sections_of_listings {bs : List Body} {ls : List Line} (hnamed : ∀ b ∈ bs, Named b.method)
    (hlistable : ∀ b ∈ bs, ∀ i ∈ b.instrs, Listable b i) (hls : ls.map Line.code = bs.flatMap listingTexts) :
    (sections ls).1 = [] ∧ List.Forall₂ (fun b s => Section.body s = .ok (reassembled b)) bs (sections ls).2 := by
  induction bs generalizing ls with
  | nil =>
    obtain rfl := List.map_eq_nil_iff.1 hls
    exact ⟨rfl, .nil⟩
  | cons b bs ih =>
    rw [List.flatMap_cons] at hls
    -- the lines of the first listing: its header, and the lines up to the next header
    obtain ⟨own, rest, rfl, hown, hrest⟩ := List.map_eq_append_iff.1 hls
    obtain ⟨l, own, rfl, hl, hown⟩ := List.map_eq_cons_iff.1 hown
    obtain ⟨header, hheader, hread⟩ := readHeader_headerLine (hnamed b List.mem_cons_self) b.signature
    have hopens : l.header? = some header := by rw [Line.header?, hl, hheader]
    have hinner : ∀ l' ∈ own, l'.header? = none := fun l' hl' => header?_eq_none (hown ▸ List.mem_map_of_mem hl')
    obtain ⟨hnone, hsections⟩ := ih (fun c hc => hnamed c (List.mem_cons_of_mem b hc))
      (fun c hc => hlistable c (List.mem_cons_of_mem b hc)) hrest
    rw [List.cons_append, sections_cons_header hopens, sections_append_left hinner, hnone, List.append_nil]
    exact ⟨rfl, .cons (body_of_section (hlistable b List.mem_cons_self) hread hown) hsections⟩

/-- A text that was put together from listings is read as what the listings are read as. -/
theorem bodies_flatMap_listing {bs : List Body} (hne : bs ≠ []) (hnamed : ∀ b ∈ bs, Named b.method)
    (hlistable : ∀ b ∈ bs, ∀ i ∈ b.instrs, Listable b i) : bodies (bs.flatMap listing) = .ok (bs.map reassembled) := by
  have hprints : List.Forall₂ Prints (bs.flatMap listingLines) (bs.flatMap listingTexts) := by
    clear hne
    induction bs with
    | nil => exact .nil
    | cons b bs ih =>
      have hfirst := prints_listing (hnamed b List.mem_cons_self) (hlistable b List.mem_cons_self)
      have hrest := ih (fun c hc => hnamed c (List.mem_cons_of_mem b hc))
        fun c hc => hlistable c (List.mem_cons_of_mem b hc)
      rw [List.flatMap_cons, List.flatMap_cons]
      exact List.rel_append hfirst hrest
  have htext : bs.flatMap listing = (bs.flatMap listingLines).flatMap fun l => l ++ ['\n'] := by
    rw [List.flatMap_assoc]
    rfl
  have hcodes := codes_ofText hprints
  rw [← htext] at hcodes
  obtain ⟨hnone, hsections⟩ := sections_of_listings hnamed hlistable hcodes
  refine bodies_eq_ok.2 ⟨fun hempty => ?_, (sections (Line.ofText (bs.flatMap listing))).2, ?_, ?_⟩
  · obtain ⟨b, bs, rfl⟩ := List.exists_cons_of_ne_nil hne
    rw [hempty] at hcodes
    cases hcodes
  · rw [← hnone]
  · exact List.forall₂_map_right_iff.2 hsections.flip

end Graft.Assembly

import Graft.Proofs.Assembly.Drafts
import Graft.Proofs.Assembly.Tokens

/-!
# Headers

A method whose name was read from a header keeps its name when a listing writes it in a header again.

* `Named` says that a header can name a method. It holds of all methods that are read from a text (`named_of_bodies`).
* `readHeader_headerLine` reads the header of a listing back.
-/

namespace Graft

open Text

/-! ### Written forms of methods -/

private theorem eq_of_splitLast? {cs l r : List Char} (h : MethodId.splitLast? cs = some (l, r)) :
    cs = l ++ ':' :: ':' :: r := by
  induction cs generalizing l with
  | nil => cases h
  | cons c cs ih =>
    unfold MethodId.splitLast? at h
    split at h
    · rename_i l' r' hsplit
      obtain ⟨rfl, rfl⟩ := Prod.mk.inj (Option.some.inj h)
      rw [ih hsplit, List.cons_append]
    · split at h
      · obtain ⟨rfl, rfl⟩ := Prod.mk.inj (Option.some.inj h)
        rfl
      · cases h

/-- A method is written as it was read. -/
theorem MethodId.text_of_ofText? {cs : List Char} {id : MethodId} (h : ofText? cs = some id) :
    id.text.toList = trim cs := by
  unfold ofText? at h
  split at h
  · rename_i hsplit
    obtain rfl := Option.some.inj h
    simp [text, eq_of_splitLast? hsplit]
  · cases h

namespace Assembly

/-- A header can name the method: nothing in its written form ends the name, the line or the text of the line, and the
form is read back. -/
structure Named (id : MethodId) : Prop where
  trimmed : Trimmed id.text.toList
  unslashed : Unslashed id.text.toList
  unmarked : ∀ c ∈ ['(', '#', '\n'], c ∉ id.text.toList
  reads : MethodId.ofText? id.text.toList = some id

/-! ### Lines without comments -/

/-- A line that is read as `text`, and neither ends before its end nor loses its end. -/
structure Prints (raw text : List Char) : Prop where
  oneLine : '\n' ∉ raw
  whole : raw.getLast? ≠ some '\r'
  reads : Line.uncommented raw = text
  nonempty : text ≠ []

/-- A line without a comment is read as what stands on it behind spaces. -/
theorem prints_append {pre cs : List Char} (hpre : ∀ c ∈ pre, c = ' ') (hmarks : ∀ c ∈ ['#', '\n'], c ∉ cs)
    (hslashes : Unslashed cs) (hcs : Trimmed cs) (hne : cs ≠ []) : Prints (pre ++ cs) cs := by
  have hnot {c : Char} (hc : c ≠ ' ') (hcs : c ∉ cs) : c ∉ pre ++ cs := by
    rw [List.mem_append, not_or]
    exact ⟨fun hmem => hc (hpre c hmem), hcs⟩
  have hblank (c : Char) (hc : c ∈ pre) : isBlank c = true := by
    rw [hpre c hc]
    rfl
  have hunslashed : Unslashed (pre ++ cs) := by
    have hslash : '/' ∉ pre := fun hmem => absurd (hpre '/' hmem) (by decide)
    exact (unslashed_of_not_mem hslash).append hslashes (.inl fun hlast => hslash (List.mem_of_getLast? hlast))
  refine ⟨hnot (by decide) (hmarks '\n' (by decide)), fun hlast => ?_, ?_, hne⟩
  · obtain ⟨c, hc⟩ := Option.ne_none_iff_exists'.1 (mt List.getLast?_eq_none_iff.1 hne)
    rw [List.getLast?_append, hc, Option.some_or, Option.some.injEq] at hlast
    have hblank := hcs.last c hc
    rw [hlast] at hblank
    cases hblank
  · rw [Line.uncommented, takeWhile_of_not_mem (hnot (by decide) (hmarks '#' (by decide))), hunslashed.untilSlashes_eq,
      trim_append hblank hcs]

theorem prints_self {cs : List Char} (hmarks : ∀ c ∈ ['#', '\n'], c ∉ cs) (hslashes : Unslashed cs) (hcs : Trimmed cs)
    (hne : cs ≠ []) : Prints cs cs := by
  have hprints : Prints ([] ++ cs) cs :=
    prints_append (fun _ hc => absurd hc List.not_mem_nil) hmarks hslashes hcs hne
  exact hprints

theorem uncommented_isInfix (raw : List Char) : Line.uncommented raw <:+: raw :=
  ((trim_isInfix _).trans (untilSlashes_isInfix _)).trans (List.takeWhile_prefix _).isInfix

theorem unslashed_uncommented (raw : List Char) : Unslashed (Line.uncommented raw) :=
  List.IsChain.infix (unslashed_untilSlashes _) (trim_isInfix _)

theorem hash_not_mem_uncommented (raw : List Char) : '#' ∉ Line.uncommented raw := by
  intro hmem
  have htake := ((trim_isInfix _).trans (untilSlashes_isInfix _)).subset hmem
  have hne := List.all_eq_true.1 List.all_takeWhile _ htake
  exact absurd rfl (bne_iff_ne.1 hne)

/-! ### Reading a header -/

/-- A header is read if its parts are: the name up to the first opening parenthesis, the list of types up to the last
closing one, and the result type behind that. -/
theorem readHeader_eq_ok {cs : List Char} {id : MethodId} {s : Signature} : readHeader cs = .ok (id, s) ↔
    ∃ list tail params returns, splitAtLastClose? ((trim cs).dropWhile (· != '(')) = some (list, tail) ∧
      MethodId.ofText? (trim ((trim cs).takeWhile (· != '('))) = some id ∧
      readTypes (list ++ [')']) = .ok params ∧ readReturns tail = .ok returns ∧ s = ⟨params, [], returns⟩ := by
  unfold readHeader
  dsimp only
  -- without a part that can be read both sides are false, with the last part both are true
  cases hsplit : splitAtLastClose? ((trim cs).dropWhile (· != '(')) with
  | none =>
    refine iff_of_false (fun h => ?_) nofun
    split at h <;> cases h
  | some parts =>
    obtain ⟨list, tail⟩ := parts
    have hlist : ¬((trim cs).dropWhile (· != '(')).isEmpty = true := by
      intro hempty
      rw [List.isEmpty_iff.1 hempty] at hsplit
      cases hsplit
    rw [if_neg hlist]
    dsimp only
    cases hid : MethodId.ofText? (trim ((trim cs).takeWhile (· != '('))) with
    | none =>
      refine iff_of_false (fun h => by cases h) ?_
      rintro ⟨-, -, -, -, -, h, -⟩
      cases h
    | some id' =>
      dsimp only
      rw [bind_eq_ok]
      constructor
      · rintro ⟨params, hparams, h⟩
        obtain ⟨returns, hreturns, h⟩ := bind_eq_ok.1 h
        obtain ⟨rfl, rfl⟩ := Prod.mk.inj (Except.ok.inj h)
        exact ⟨list, tail, params, returns, rfl, rfl, hparams, hreturns, rfl⟩
      · rintro ⟨list', tail', params, returns, hparts, hid', hparams, hreturns, rfl⟩
        obtain ⟨rfl, rfl⟩ := Prod.mk.inj (Option.some.inj hparts)
        obtain rfl := Option.some.inj hid'
        exact ⟨params, hparams, bind_eq_ok.2 ⟨returns, hreturns, rfl⟩⟩

/-! ### Methods that were read -/

/-- A method that was named by a header can be named by one. -/
private theorem named_of_readHeader {cs : List Char} {id : MethodId} {s : Signature} (hslashes : Unslashed cs)
    (hhash : '#' ∉ cs) (hfeed : '\n' ∉ cs) (h : readHeader cs = .ok (id, s)) : Named id := by
  obtain ⟨-, -, -, -, -, hid, -⟩ := readHeader_eq_ok.1 h
  -- the written form is a part of the header in one piece, so it has no comment and no line feed either
  obtain ⟨name, hname⟩ : ∃ name, name = (trim cs).takeWhile (· != '(') := ⟨_, rfl⟩
  have hwritten : id.text.toList = trim name := by
    rw [MethodId.text_of_ofText? hid, hname, (trimmed_trim _).trim_eq]
  have hpart : id.text.toList <:+: cs := by
    rw [hwritten, hname]
    exact ((trim_isInfix _).trans (List.takeWhile_prefix _).isInfix).trans (trim_isInfix cs)
  have hopen : '(' ∉ id.text.toList := by
    intro hmem
    rw [hwritten] at hmem
    have hne := List.all_eq_true.1 List.all_takeWhile _ (hname ▸ (trim_isInfix name).subset hmem)
    exact absurd rfl (bne_iff_ne.1 hne)
  constructor
  · rw [hwritten]
    exact trimmed_trim name
  · exact List.IsChain.infix hslashes hpart
  · intro c hc hmem
    simp only [List.mem_cons, List.not_mem_nil, or_false] at hc
    rcases hc with rfl | rfl | rfl
    · exact hopen hmem
    · exact hhash (hpart.subset hmem)
    · exact hfeed (hpart.subset hmem)
  · rw [hwritten, hname]
    exact hid

/-! ### Methods of a text -/

private theorem method_of_section {s : Section} {b : Body} (h : s.body = .ok b) :
    ∃ sig, readHeader s.header = .ok (b.method, sig) := by
  obtain ⟨id, sig, d, hheader, hlines, hd⟩ := Section.body_eq_ok.1 h
  have hmethod : d.method = id :=
    foldlM_keeps (P := fun d : Draft => d.method = id)
      (fun _ _ _ hid hline => (Draft.addLine_keeps hline).1.trans hid) s.rest rfl hlines
  obtain ⟨-, instrs, -, rfl⟩ := Draft.assemble_eq_ok.1 hd
  exact ⟨sig, by rw [hheader, ← hmethod]⟩

/-- The methods of a text can be named by headers. -/
theorem named_of_bodies {src : List Char} {bs : List Body} (h : bodies src = .ok bs) {b : Body} (hb : b ∈ bs) :
    Named b.method := by
  obtain ⟨-, secs, hsecs, hbodies⟩ := bodies_eq_ok.1 h
  obtain ⟨s, hs, hbody⟩ := exists_of_mem_right hbodies hb
  obtain ⟨sig, hheader⟩ := method_of_section hbody
  obtain ⟨hlines, -, hwhole⟩ := sections_spec hsecs
  have hl : s.opening ∈ Line.ofText src := by
    rw [hlines]
    exact List.mem_flatMap.2 ⟨s, hs, List.mem_cons_self⟩
  have hafter := (hwhole s hs).opening
  obtain ⟨⟨raw, n⟩, hraw, hline⟩ := List.mem_map.1 (List.mem_filter.1 hl).1
  rw [← hline] at hafter
  have hcode : Line.uncommented raw = ".method".toList ++ s.header := eq_append_of_after? hafter
  have hpart : s.header <:+: Line.uncommented raw := hcode ▸ (List.suffix_append _ _).isInfix
  refine named_of_readHeader ?_ ?_ ?_ hheader
  · exact List.IsChain.infix (unslashed_uncommented raw) hpart
  · exact fun hmem => hash_not_mem_uncommented raw (hpart.subset hmem)
  · intro hmem
    exact feed_not_mem_lines (List.fst_mem_of_mem_zipIdx hraw) ((hpart.trans (uncommented_isInfix raw)).subset hmem)

/-! ### Headers of listings -/

/-- What a header has behind the list of types. -/
private def returnsText : Option ValueType → List Char
  | some t => " -> ".toList ++ t.keyword.toList
  | none => []

private theorem readReturns_returnsText (returns : Option ValueType) :
    readReturns (returnsText returns) = .ok returns := by
  cases returns with
  | none => rfl
  | some t => cases t <;> rfl

private theorem mem_returnsText {returns : Option ValueType} {c : Char} (hc : c ∈ returnsText returns) :
    c ∈ plain ∨ c ∈ [' ', '>'] := by
  cases returns with
  | none => cases hc
  | some t =>
    rcases List.mem_append.1 hc with hc | hc
    · have harrow : ∀ c ∈ " -> ".toList, c ∈ plain ∨ c ∈ [' ', '>'] := List.all_iff_forall_prop.1 (by decide)
      exact harrow c hc
    · exact .inl ((token_keyword t).plain c hc)

/-- What a header has behind the name. -/
private def tailText (s : Signature) : List Char := typeList s.params ++ returnsText s.returns

private theorem tailText_spec {s : Signature} {c : Char} (hc : c ∈ tailText s) : c ∉ ['/', '#', '\n'] := by
  intro hmark
  rcases List.mem_append.1 hc with hc | hc
  · exact not_mem_typeList hmark _ hc
  · rcases mem_returnsText hc with hplain | hother
    · exact (plain_spec c hplain).2 (List.mem_append_left ['\r', ':', '(', ')', ','] hmark)
    · have hothers : ∀ c ∈ [' ', '>'], c ∉ ['/', '#', '\n'] := List.all_iff_forall_prop.1 (by decide)
      exact hothers c hother hmark

/-- The last character of a header is not blank. -/
private theorem tailText_last (s : Signature) : ∃ cs c, tailText s = cs ++ [c] ∧ isBlank c = false := by
  obtain ⟨params, locals, returns⟩ := s
  cases returns with
  | none => exact ⟨'(' :: (ValueType.joined params).toList, ')', List.append_nil _, rfl⟩
  | some t =>
    have hlast (cs : List Char) (c : Char) (hc : isBlank c = false) (h : t.keyword.toList = cs ++ [c]) :
        ∃ cs c, tailText ⟨params, locals, some t⟩ = cs ++ [c] ∧ isBlank c = false := by
      refine ⟨typeList params ++ (" -> ".toList ++ cs), c, ?_, hc⟩
      show typeList params ++ (" -> ".toList ++ t.keyword.toList) = _
      rw [h, List.append_assoc, List.append_assoc]
    cases t with
    | i32 => exact hlast ['i', '3'] '2' rfl rfl
    | i64 => exact hlast ['i', '6'] '4' rfl rfl
    | bool => exact hlast ['b', 'o', 'o'] 'l' rfl rfl

section HeaderLine

variable {id : MethodId} (h : Named id) (s : Signature)

private theorem headerLine_eq (id : MethodId) (s : Signature) :
    headerLine id s = ".method".toList ++ ' ' :: (id.text.toList ++ tailText s) := by
  have hopening : ".method ".toList = ".method".toList ++ [' '] := rfl
  show ".method ".toList ++ id.text.toList ++ typeList s.params ++ returnsText s.returns = _
  rw [hopening, tailText, List.append_assoc, List.append_assoc, List.append_assoc]
  rfl

private theorem head?_tailText (s : Signature) : (tailText s).head? = some '(' := rfl

include h

private theorem unslashed_nameTail : Unslashed (id.text.toList ++ tailText s) := by
  refine h.unslashed.append (unslashed_of_not_mem fun hmem => tailText_spec hmem (by decide)) (.inr ?_)
  rw [head?_tailText]
  decide

private theorem trimmed_nameTail : Trimmed (id.text.toList ++ tailText s) := by
  obtain ⟨cs, c, htail, hc⟩ := tailText_last s
  have hhead (d : Char) (hd : (id.text.toList ++ tailText s).head? = some d) : isBlank d = false := by
    rw [List.head?_append] at hd
    rcases Option.or_eq_some_iff.1 hd with hd | ⟨-, hd⟩
    · exact h.trimmed.head d hd
    · obtain rfl : '(' = d := Option.some.inj ((head?_tailText s).symm.trans hd)
      rfl
  rw [htail, ← List.append_assoc] at hhead ⊢
  exact trimmed_append_singleton hhead hc

/-- The header of a listing is read as it is written. -/
theorem prints_headerLine : Prints (headerLine id s) (headerLine id s) := by
  have hopening : ∀ c ∈ ['/', '#', '\n'], c ∉ ".method".toList ++ [' '] :=
    List.all_iff_forall_prop.1 (by decide)
  have hline : headerLine id s = (".method".toList ++ [' ']) ++ (id.text.toList ++ tailText s) := by
    rw [headerLine_eq, List.append_assoc]
    rfl
  rw [hline]
  refine prints_self ?_ ?_ ?_ (by simp)
  · intro c hc hmem
    rcases List.mem_append.1 hmem with hmem | hmem
    · exact hopening c (List.mem_cons_of_mem _ hc) hmem
    · rcases List.mem_append.1 hmem with hmem | hmem
      · exact h.unmarked c (List.mem_cons_of_mem _ hc) hmem
      · exact tailText_spec hmem (List.mem_cons_of_mem _ hc)
  · refine (unslashed_of_not_mem (hopening '/' (by decide))).append (unslashed_nameTail h s) (.inl ?_)
    decide
  · obtain ⟨cs, c, htail, hc⟩ := tailText_last s
    rw [htail, ← List.append_assoc, ← List.append_assoc]
    refine trimmed_append_singleton (fun d hd => ?_) hc
    obtain rfl : '.' = d := Option.some.inj hd
    rfl

/-- The header of a listing opens a method, and names the method and the types of its signature. -/
theorem readHeader_headerLine : ∃ header, after? ".method".toList (headerLine id s) = some header ∧
    readHeader header = .ok (id, ⟨s.params, [], s.returns⟩) := by
  refine ⟨_, headerLine_eq id s ▸ after?_append .., ?_⟩
  have htrim : trim (' ' :: (id.text.toList ++ tailText s)) = id.text.toList ++ tailText s :=
    trim_append isBlank_space (trimmed_nameTail h s)
  have hopen : '(' ∉ id.text.toList := h.unmarked '(' (by decide)
  have htail : tailText s = '(' :: ((ValueType.joined s.params).toList ++ ')' :: returnsText s.returns) := by
    rw [tailText, typeList]
    simp
  have hclose : ')' ∉ returnsText s.returns := by
    intro hmem
    rcases mem_returnsText hmem with hmem | hmem
    · exact absurd hmem (by decide)
    · exact absurd hmem (by decide)
  refine readHeader_eq_ok.2 ⟨'(' :: (ValueType.joined s.params).toList, returnsText s.returns, s.params, s.returns,
    ?_, ?_, ?_, readReturns_returnsText _, rfl⟩
  · rw [htrim, htail, dropWhile_append_mark hopen, ← List.cons_append, splitAtLastClose?_append hclose]
  · rw [htrim, htail, takeWhile_append_mark hopen, h.trimmed.trim_eq]
    exact h.reads
  · have hpre : ∀ c ∈ ([] : List Char), isBlank c = true := fun _ hc => absurd hc List.not_mem_nil
    exact readTypes_typeList hpre s.params

end HeaderLine

end Assembly

end Graft

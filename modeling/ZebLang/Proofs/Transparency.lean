/-
  Comments in assembly are transparent.

  A text that is compiled with comments is the text without them, and in front of the code of each statement a
  line that repeats the statement.

  1. From the frames to the texts: lines that repeat a statement are told from all others by how they start,
     because no line of code has a semicolon (`isRemark_eq_false`), and the text of a statement is one line
     (`exists_statementText`).  So the lines that go are just the comments
     (`Frame.Annotates.unannotated_text`).
  2. From source text only statements come whose text can be written, so comments bring no fault of their own,
     and lowering with them does what it does without (`Lowering.alike_all`).
-/

import ZebLang.Proofs.Assembly.ReadBack
import ZebLang.Proofs.Compilation
import ZebLang.Proofs.Lowering.Annotation
import ZebLang.Proofs.Lowering.Places
import ZebLang.Proofs.Program.RoundTrip

namespace ZebLang

/-! ## Lines that repeat a statement -/

/-- `isRemark row`: the row of assembly repeats a statement. -/
def isRemark (row : List Char) : Bool := "    ; ".toList.isPrefixOf row

/-- `unannotated text`: the text without the rows that repeat a statement. -/
def unannotated (text : String) : String :=
  String.ofList (['\n'].intercalate ((Text.rows text.toList).filter fun row => !isRemark row))

/-- `annotations text`: the rows of a text that repeat a statement. -/
def annotations (text : String) : List String :=
  ((Text.rows text.toList).filter isRemark).map String.ofList

example : unannotated "_start:\n    ; endfor\n    pop rax\n" = "_start:\n    pop rax\n" := by decide

/-- `isRemark` fails of a row without a semicolon. -/
theorem isRemark_eq_false {row : List Char} (h : ';' ∉ row) : isRemark row = false := by
  apply Bool.eq_false_iff.mpr
  intro hannotation
  obtain ⟨rest, rfl⟩ := List.isPrefixOf_iff_prefix.mp hannotation
  exact h (List.mem_append_left rest (by decide))

/-- `rowOf` a comment at the level of code. -/
theorem rowOf_comment (text : String) :
    Reader.rowOf ⟨1, .comment text⟩ = "    ; ".toList ++ text.toList := by
  show _ ++ ("; " ++ text).toList = _
  rw [String.toList_append, ← List.append_assoc]
  rfl

/-- `isRemark` holds of a comment at the level of code. -/
theorem isRemark_comment (text : String) : isRemark (Reader.rowOf ⟨1, .comment text⟩) = true := by
  rw [rowOf_comment]
  exact List.isPrefixOf_iff_prefix.mpr (List.prefix_append _ _)

/-! ## The text of a statement is one line -/

theorem IsIdentifier.not_mem {name : String} (h : IsIdentifier name) : '\n' ∉ name.toList := by
  obtain ⟨first, rest, hname, hfirst, hrest⟩ := h.spelled
  rw [hname]
  intro hmem
  rcases List.mem_cons.mp hmem with rfl | hmem
  · exact absurd hfirst (by decide)
  · exact absurd (hrest _ hmem) (by decide)

theorem not_mem_decimal (n : Int) : '\n' ∉ (Text.decimal n).toList := by
  intro hmem
  rcases Text.mem_decimal hmem with hdigit | hminus
  · exact absurd hdigit (by decide)
  · exact absurd hminus (by decide)

theorem not_mem_operator {operator : String} (h : operator ∈ operatorSigns) : '\n' ∉ operator.toList := by
  simp only [operatorSigns, List.mem_cons, List.not_mem_nil, or_false] at h
  rcases h with rfl | rfl | rfl | rfl | rfl
  all_goals decide

/-- `expressionText` of a `SourceExpression` is one line. -/
theorem exists_expressionText {d : Datum} (h : SourceExpression d) :
    ∃ text, d.expressionText = .ok text ∧ '\n' ∉ text.toList := by
  induction h with
  | @literal tag n htag hlow hhigh => exact ⟨_, writeInt_of_fits hlow hhigh, not_mem_decimal n⟩
  | @reference tag name htag hname => exact ⟨name, rfl, hname.not_mem⟩
  | @binary tag left right operator htag hleft hoperator hright ihleft ihright =>
    obtain ⟨l, hl, hlfeed⟩ := ihleft
    obtain ⟨r, hr, hrfeed⟩ := ihright
    refine ⟨"(" ++ l ++ " " ++ operator ++ " " ++ r ++ ")", ?_, ?_⟩
    · rw [Datum.expressionText, hl, hr]
      rfl
    · simp [hlfeed, hrfeed, not_mem_operator hoperator]
  | @call tag name argument htag hname hargument ih =>
    obtain ⟨a, ha, hfeed⟩ := ih
    refine ⟨name ++ "(" ++ a ++ ")", ?_, ?_⟩
    · rw [Datum.expressionText, ha]
      rfl
    · simp [hfeed, hname.not_mem]

/-- `statementText` of a `SourceStatement` is one line. -/
theorem exists_statementText {d : Datum} (h : SourceStatement d) :
    ∃ text, d.statementText = .ok text ∧ '\n' ∉ text.toList := by
  cases h with
  | @exit tag e htag he =>
    obtain ⟨text, htext, hfeed⟩ := exists_expressionText he
    refine ⟨"exit " ++ text, ?_, by simp [hfeed]⟩
    rw [Datum.statementText, htext]
    rfl
  | @assign tag name e htag hname he =>
    obtain ⟨text, htext, hfeed⟩ := exists_expressionText he
    refine ⟨name ++ " = " ++ text, ?_, by simp [hfeed, hname.not_mem]⟩
    rw [Datum.statementText, htext]
    rfl
  | @loop tag name e htag hname he =>
    obtain ⟨text, htext, hfeed⟩ := exists_expressionText he
    refine ⟨"for " ++ name ++ " in " ++ text, ?_, by simp [hfeed, hname.not_mem]⟩
    rw [Datum.statementText, htext]
    rfl
  | @endLoop tag htag => exact ⟨"endfor", rfl, by decide⟩

/-- `statementText` of each `SourceStatement` of a list is one line. -/
theorem exists_statementTexts {statements : List Datum} (h : ∀ d ∈ statements, SourceStatement d) :
    ∃ texts, statements.mapM Datum.statementText = .ok texts ∧ texts.length = statements.length ∧
      ∀ text ∈ texts, '\n' ∉ text.toList := by
  induction statements with
  | nil => exact ⟨[], rfl, rfl, fun _ hmem => nomatch hmem⟩
  | cons d rest ih =>
    obtain ⟨text, htext, hfeed⟩ := exists_statementText (h d (by simp))
    obtain ⟨texts, htexts, hlength, hfeeds⟩ := ih fun x hx => h x (by simp [hx])
    refine ⟨text :: texts, mapM_cons_ok htext htexts, congrArg (· + 1) hlength, ?_⟩
    exact List.forall_mem_cons.mpr ⟨hfeed, hfeeds⟩

/-! ## Frames and their texts -/

namespace Frame

/-- `rows` of the text of a frame, whatever stands in its lines. -/
theorem rows_text_flatMap {f : Frame} (hprologue : f.prologue = ZebLang.prologue) :
    Text.rows f.text.toList = ["global _start".toList, "_start:".toList] ++
      f.lines.toList.flatMap (fun l => Text.rows (Reader.rowOf l)) ++ [[]] := by
  have hfirst : Text.rows "global _start".toList = ["global _start".toList] :=
    Text.rows_of_not_mem (by decide)
  have hsecond : Text.rows "_start:".toList = ["_start:".toList] := Text.rows_of_not_mem (by decide)
  rw [f.toList_text hprologue, Text.rows_flatMap, List.flatMap_cons, List.flatMap_cons, hfirst, hsecond,
    List.flatMap_map]
  rfl

/-- `rows` of the text of a frame whose lines have no line feeds: one for each line. -/
theorem rows_text {f : Frame} (hprologue : f.prologue = ZebLang.prologue)
    (hrows : ∀ l ∈ f.lines.toList, '\n' ∉ Reader.rowOf l) :
    Text.rows f.text.toList =
      ["global _start".toList, "_start:".toList] ++ f.lines.toList.map Reader.rowOf ++ [[]] := by
  rw [rows_text_flatMap hprologue, List.map_eq_flatMap]
  congr 2
  exact List.flatMap_congr fun l hl => Text.rows_of_not_mem (hrows l hl)

section Annotated

variable {f g : Frame} {texts : List String}
  (h : f.Annotates (texts.map fun text => ⟨1, .comment text⟩) g)
  (hprologue : g.prologue = ZebLang.prologue) (hknown : ∀ l ∈ g.lines.toList, l.item.IsKnown)
  (htexts : ∀ text ∈ texts, '\n' ∉ text.toList)
include h hknown htexts

/-- `Annotates`: a line of either frame is one row, and it is a comment just if `isRemark` holds of the row.
    -/
theorem Annotates.rowOf_of_mem {l : Line} (hl : l ∈ f.lines.toList) :
    '\n' ∉ Reader.rowOf l ∧ isRemark (Reader.rowOf l) = l.isComment := by
  rcases h.mem_cases hl with hremark | ⟨hcode, hcomment⟩
  · obtain ⟨text, htext, rfl⟩ := List.mem_map.mp hremark
    refine ⟨?_, isRemark_comment text⟩
    rw [rowOf_comment]
    intro hfeed
    rcases List.mem_append.mp hfeed with hfeed | hfeed
    · exact absurd hfeed (by decide)
    · exact htexts text htext hfeed
  · have hplain := Reader.plain_rowOf (hknown l hcode)
    rw [hcomment]
    constructor
    · exact fun hfeed => absurd (hplain _ hfeed).2 (by decide)
    · exact isRemark_eq_false fun hsemicolon => (hplain _ hsemicolon).1 rfl

include hprologue

/-- `Annotates`: the rows with `isRemark` are the comments, and the others are those of the frame without
    comments. -/
theorem Annotates.filter_rows :
    (Text.rows f.text.toList).filter (fun row => !isRemark row) = Text.rows g.text.toList ∧
      (Text.rows f.text.toList).filter isRemark =
        texts.map fun text => "    ; ".toList ++ text.toList := by
  have heach : ∀ l ∈ f.lines.toList,
      '\n' ∉ Reader.rowOf l ∧ isRemark (Reader.rowOf l) = l.isComment :=
    fun l hl => h.rowOf_of_mem hknown htexts hl
  obtain ⟨rfl, hremarks⟩ := h
  have hbare : ∀ l ∈ f.bare.lines.toList, '\n' ∉ Reader.rowOf l := by
    intro l hl
    rw [toList_bare] at hl
    exact (heach l (List.mem_filter.mp hl).1).1
  have hcode : (f.lines.toList.map Reader.rowOf).filter (fun row => !isRemark row) =
      f.bare.lines.toList.map Reader.rowOf := by
    rw [List.filter_map, toList_bare]
    exact congrArg _ (List.filter_congr fun l hl => congrArg (!·) (heach l hl).2)
  have hcomments : (f.lines.toList.map Reader.rowOf).filter isRemark =
      texts.map fun text => "    ; ".toList ++ text.toList := by
    have hremark : f.lines.toList.filter (isRemark ∘ Reader.rowOf) = f.remarks :=
      List.filter_congr fun l hl => (heach l hl).2
    rw [List.filter_map, hremark, hremarks, List.map_map]
    exact List.map_congr_left fun text _ => rowOf_comment text
  rw [rows_text (f := f) hprologue fun l hl => (heach l hl).1, rows_text (f := f.bare) hprologue hbare]
  constructor
  · rw [List.filter_append, List.filter_append, hcode]
    rfl
  · rw [List.filter_append, List.filter_append, hcomments]
    exact List.append_nil _

/-- `unannotated` gives the text of the frame without comments. -/
theorem Annotates.unannotated_text : unannotated f.text = g.text := by
  unfold unannotated
  rw [(h.filter_rows hprologue hknown htexts).1]
  show String.ofList (['\n'].intercalate (g.text.toList.splitOn '\n')) = _
  rw [List.intercalate_splitOn, String.ofList_toList]

/-- `annotations` gives the comments. -/
theorem Annotates.annotations_text : annotations f.text = texts.map ("    ; " ++ ·) := by
  unfold annotations
  rw [(h.filter_rows hprologue hknown htexts).2, List.map_map]
  refine List.map_congr_left fun text _ => ?_
  show String.ofList ("    ; ".toList ++ text.toList) = _
  rw [← String.toList_append, String.ofList_toList]

end Annotated

end Frame

/-! ## Programs with and without comments -/

/-- `lower` with comments does what it does without them: both stop with one fault, or both go to the end,
    and the comments are all that differs. -/
theorem lower_comments {statements : List Datum} (hsource : ∀ d ∈ statements, SourceStatement d)
    (hstandard : ∀ d ∈ statements, d.isStandard = true) :
    (lower true statements).frame.notes = (lower false statements).frame.notes ∧
      ((∃ e, (lower true statements).text = .error e ∧ (lower false statements).text = .error e) ∨
        ∃ text shown, (lower true statements).text = .ok text ∧
          (lower false statements).text = .ok (unannotated text) ∧
          statements.mapM Datum.statementText = .ok shown ∧ shown.length = statements.length ∧
          annotations text = shown.map ("    ; " ++ ·)) := by
  obtain ⟨shown, hshown, hlength, hfeeds⟩ := exists_statementTexts hsource
  have hagree := @Lowering.alike_all [] _ _ hshown {} {} ⟨rfl, rfl⟩
  generalize htrue : (Lowering.lowerAll true statements).run {} = annotated at hagree
  generalize hfalse : (Lowering.lowerAll false statements).run {} = plain at hagree
  cases hagree with
  | @ok u f g h =>
    obtain ⟨code, hcode, hitems, hprologue⟩ := Lowering.lowersAll_of_lowerAll hstandard hfalse
    have hknown : ∀ l ∈ g.lines.toList, l.item.IsKnown := by
      intro l hl
      have hmem : l.item ∈ itemsOf g.lines.toList := List.mem_map_of_mem hl
      rw [hitems] at hmem
      exact hcode.fresh.known l.item hmem
    rw [lower_of_ok htrue, lower_of_ok hfalse]
    refine ⟨?_, .inr ⟨f.text, shown, rfl, ?_, hshown, hlength, ?_⟩⟩
    · obtain ⟨rfl, -⟩ := h
      rfl
    · exact congrArg Except.ok (h.unannotated_text hprologue hknown hfeeds).symm
    · exact h.annotations_text hprologue hknown hfeeds
  | @error e f g h =>
    subst h
    rw [lower_of_error htrue, lower_of_error hfalse]
    exact ⟨rfl, .inl ⟨e, rfl, rfl⟩⟩

namespace Compilation

section Parsed

variable {options : Options} {p : Program} (file : String) (count : Nat) (lines : List String)

/-- `ofProgram` of a program that cannot be lowered is `stopped`. -/
theorem ofProgram_of_error {fault : Fault}
    (h : (lower options.comments (p.statements.map Stmt.toDatum)).text = .error fault) :
    ofProgram options file count lines p = stopped file count (some p.toDatum)
      (lower options.comments (p.statements.map Stmt.toDatum)).frame.notes.toList (fault.quoting lines) := by
  have htree : (lowerTree options.comments p.toDatum).text = .error fault := h
  unfold ofProgram
  dsimp only
  rw [htree]
  rfl

/-- `assembly?` of a program that is lowered is its text. -/
theorem assembly?_ofProgram {text : String}
    (h : (lower options.comments (p.statements.map Stmt.toDatum)).text = .ok text) :
    (ofProgram options file count lines p).assembly? = some text := by
  have htree : (lowerTree options.comments p.toDatum).text = .ok text := h
  unfold ofProgram
  dsimp only
  rw [htree]
  rfl

end Parsed

end Compilation

/-- Comments are transparent.  Where a source text has no assembly, it is compiled with comments just as
    without them, to the same fault.  Where it has one, the assembly with comments is the same but for rows
    that repeat the statements of the text: one for each statement, in their order. -/
theorem ofSource_comments (source file : String) :
    ((Compilation.ofSource { comments := false } source file).assembly? = none ∧
      Compilation.ofSource { comments := true } source file =
        Compilation.ofSource { comments := false } source file) ∨
    ∃ p text shown, Program.ofSource source file = .ok p ∧
      (Compilation.ofSource { comments := true } source file).assembly? = some text ∧
      (Compilation.ofSource { comments := false } source file).assembly? = some (unannotated text) ∧
      (p.statements.map Stmt.toDatum).mapM Datum.statementText = .ok shown ∧
      annotations text = shown.map ("    ; " ++ ·) ∧
      (annotations text).length = p.statements.length := by
  rcases Compilation.ofSource_cases source file with ⟨count, fault, hstopped⟩ | ⟨count, p, hparse, hcompiled⟩
  · left
    rw [hstopped, hstopped]
    exact ⟨Compilation.assembly?_stopped .., rfl⟩
  · have hstandard : ∀ d ∈ p.statements.map Stmt.toDatum, d.isStandard = true := by
      intro d hd
      obtain ⟨s, -, rfl⟩ := List.mem_map.mp hd
      exact s.isStandard_toDatum
    rw [hcompiled, hcompiled]
    cases sourceProgram_of_ofSource hparse with
    | program htag heach =>
      obtain ⟨hnotes, hlowered⟩ := lower_comments heach hstandard
      rcases hlowered with ⟨e, htrue, hfalse⟩ | ⟨text, shown, htrue, hfalse, hshown, hlength, hannotations⟩
      · left
        rw [@Compilation.ofProgram_of_error { comments := true } _ _ _ _ _ htrue,
          @Compilation.ofProgram_of_error { comments := false } _ _ _ _ _ hfalse, hnotes]
        exact ⟨Compilation.assembly?_stopped .., rfl⟩
      · right
        refine ⟨p, text, shown, hparse, ?_, ?_, hshown, hannotations, ?_⟩
        · exact @Compilation.assembly?_ofProgram { comments := true } _ _ _ _ _ htrue
        · exact @Compilation.assembly?_ofProgram { comments := false } _ _ _ _ _ hfalse
        · rw [hannotations, List.length_map, hlength, List.length_map]

end ZebLang

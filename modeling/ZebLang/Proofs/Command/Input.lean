/-
  What the command does to its input.

  Without a path for the output, assembly is written beside the input, under its name with `.asm` for a
  suffix.  A run keeps the bytes of the input but in one case (`run_keeps_input_unless`):

  1. Only the file that the path of the output leads to can change.  So the input changes only if this path leads
     to it, by a link or because the two paths are the same.
  2. The paths are the same just if the input has the suffix already (`output_eq_input_iff`).
  3. Once the assembly is written the source text is lost, for assembly is none: its second line has a colon in
     it, and no token starts with one (`sourceText_ne_assembly`).
-/

import ZebLang.Proofs.Command
import ZebLang.Proofs.Token.Locality

namespace ZebLang

/-! ## Suffixes -/

namespace Path

/-- `stem` takes a suffix off again. -/
theorem stem_append {base suffix : String} (hbase : base ≠ "") (hsuffix : suffix ≠ "")
    (hdot : '.' ∉ suffix.toList) : stem (base ++ "." ++ suffix) = base := by
  have hreversed : (base ++ "." ++ suffix).toList.reverse =
      suffix.toList.reverse ++ '.' :: base.toList.reverse := by
    rw [String.toList_append, String.toList_append, List.reverse_append, List.reverse_append]
    rfl
  have hrun : ∀ c ∈ suffix.toList.reverse, (c != '.') = true := by
    intro c hc
    rw [bne_iff_ne]
    rintro rfl
    exact hdot (List.mem_reverse.mp hc)
  have hend : ∀ c ∈ ('.' :: base.toList.reverse).head?, (c != '.') = false := by
    intro c hc
    cases hc
    rfl
  unfold stem
  rw [hreversed]
  dsimp only
  rw [Text.takeWhile_run hrun hend, Text.dropWhile_run hrun hend, if_neg]
  · rw [List.drop_one, List.tail_cons, List.reverse_reverse, String.ofList_toList]
  · simp [hbase, hsuffix]

/-- `stem` and the suffix `.asm` give back just the names that have it. -/
theorem stem_append_eq_iff {name : String} :
    stem name ++ ".asm" = name ↔ ∃ base, base ≠ "" ∧ name = base ++ ".asm" := by
  constructor
  · intro h
    refine ⟨stem name, fun hempty => ?_, h.symm⟩
    -- a name that starts with its only dot has no suffix
    rw [hempty, String.empty_append] at h
    rw [← h] at hempty
    exact absurd hempty (by decide)
  · rintro ⟨base, hbase, rfl⟩
    have hstem : stem (base ++ "." ++ "asm") = base := stem_append hbase (by decide) (by decide)
    rw [String.append_assoc] at hstem
    exact congrArg (· ++ ".asm") hstem

theorem names_withSuffix {p : Path} {init : List String} {last : String} (h : p.names = init ++ [last])
    (suffix : String) : (p.withSuffix suffix).names = init ++ [stem last ++ suffix] := by
  unfold withSuffix
  dsimp only
  rw [h, List.dropLast_concat, List.getLast?_concat]
  rfl

end Path

/-! ## Assembly read as source text -/

namespace Text

/-- `decodeFrom` keeps what is decoded so far in front. -/
theorem decodeFrom_extends {position : Nat} {done : List Char} {pending : Option Utf8Open}
    {bytes : List UInt8} {chars : List Char} (h : decodeFrom position done pending bytes = .ok chars) :
    ∃ more, chars = done.reverse ++ more := by
  induction bytes generalizing position done pending with
  | nil =>
    cases pending with
    | none =>
      cases h
      exact ⟨[], (List.append_nil _).symm⟩
    | some p => cases h
  | cons b rest ih =>
    -- one more character is put in front of those that are read, or none
    have hone : ∀ {position c}, decodeFrom position (c :: done) none rest = .ok chars →
        ∃ more, chars = done.reverse ++ more := by
      intro position c hc
      obtain ⟨more, rfl⟩ := ih hc
      exact ⟨c :: more, by simp⟩
    cases pending with
    | none =>
      rw [decodeFrom] at h
      split at h
      · exact hone h
      · split at h
        · cases h
        · exact ih h
    | some p =>
      rw [decodeFrom] at h
      dsimp only at h
      split at h
      · split at h
        · exact hone h
        · exact ih h
      · cases h

/-- `decodeFrom` on bytes that are characters of their own. -/
theorem decodeFrom_ascii {ascii : List UInt8} (h : ∀ b ∈ ascii, b < 0x80) (position : Nat)
    (done : List Char) (rest : List UInt8) :
    decodeFrom position done none (ascii ++ rest) =
      decodeFrom (position + ascii.length) ((ascii.map fun b => Char.ofNat b.toNat).reverse ++ done) none
        rest := by
  induction ascii generalizing position done with
  | nil => rfl
  | cons b more ih =>
    have hmore : ∀ x ∈ more, x < 0x80 := fun x hx => h x (List.mem_cons_of_mem b hx)
    rw [List.cons_append, decodeFrom, if_pos (h b List.mem_cons_self), ih hmore, List.length_cons,
      List.map_cons, List.reverse_cons, List.append_assoc, Nat.add_assoc, Nat.add_comm 1]
    rfl

theorem unifyBreaks_append {chars : List Char} (h : '\r' ∉ chars) (rest : List Char) :
    unifyBreaks (chars ++ rest) = chars ++ unifyBreaks rest := by
  induction chars with
  | nil => rfl
  | cons c more ih =>
    rw [List.mem_cons, not_or] at h
    rw [List.cons_append, unifyBreaks, if_neg (Ne.symm h.1), ih h.2]
    · rfl
    · rintro _ heq -
      exact h.1 heq.symm

end Text

namespace Command

/-- `sourceText` of assembly starts as the assembly does. -/
theorem sourceText_prologue {code source : String}
    (h : sourceText (bytesOf (prologue ++ code)) = .ok source) :
    ∃ more, source = "global _start\n_start:" ++ "\n" ++ more := by
  have hbytes : bytesOf prologue = [103, 108, 111, 98, 97, 108, 32, 95, 115, 116, 97, 114, 116, 10,
      95, 115, 116, 97, 114, 116, 58, 10] := by cbv
  unfold sourceText at h
  split at h
  · next chars hdecoded =>
    cases h
    rw [bytesOf_append, hbytes, Text.decode, Text.decodeFrom_ascii (by decide +kernel)] at hdecoded
    obtain ⟨more, rfl⟩ := Text.decodeFrom_extends hdecoded
    refine ⟨String.ofList (Text.unifyBreaks more), ?_⟩
    rw [List.append_nil, List.reverse_reverse, Text.unifyBreaks_append (by decide), String.ofList_append]
    rfl
  · cases h

/-- `sourceText` of assembly has no assembly. -/
theorem sourceText_ne_assembly {options : Options} {source file assembly : String}
    (h : (Compilation.ofSource options source file).assembly? = some assembly) :
    sourceText (bytesOf assembly) ≠ .ok source := by
  intro hsource
  have hassembly : ∃ code, assembly = prologue ++ code := by
    unfold Compilation.assembly? at h
    split at h
    · next report hresult =>
      obtain ⟨state, hstate⟩ := Compilation.exists_isIn hresult
      cases state with
      | compiled =>
        obtain ⟨code, houtcome, -⟩ := hstate
        rw [houtcome] at h
        cases h
        exact ⟨code, rfl⟩
      | unparsed =>
        obtain ⟨d, houtcome, -⟩ := hstate
        rw [houtcome] at h
        cases h
      | unlowered =>
        obtain ⟨d, category, houtcome, -⟩ := hstate
        rw [houtcome] at h
        cases h
    · cases h
  obtain ⟨code, rfl⟩ := hassembly
  obtain ⟨more, rfl⟩ := sourceText_prologue hsource
  -- reading stops in the second line
  have hcolon : (lex "global _start\n_start:" file).fault =
      some (.diagnostic ⟨.invalidCharacter ':', some (.known ⟨file, 2, 7⟩), some "_start:"⟩) := by
    with_unfolding_all rfl
  have hlexed := (lex_lineFeed "global _start\n_start:" more file).1 _ hcolon
  have hall := all_eq_error_iff.mpr (hlexed ▸ hcolon)
  unfold Compilation.ofSource at h
  rw [hall] at h
  cases h

/-! ## The input -/

/-- `output`, where no path is given for it, is the input just if the name of the input has the suffix
    already. -/
theorem output_eq_input_iff {r : Request} (h : r.output? = none) :
    r.output = r.input ↔ ∃ front base, r.input.names = front ++ [base ++ ".asm"] ∧ base ≠ "" := by
  obtain ⟨front, last, hnames⟩ := r.input.names.eq_nil_or_concat'.resolve_left r.named
  have houtput : r.output = ⟨r.input.root, front ++ [Path.stem last ++ ".asm"]⟩ := by
    unfold Request.output
    rw [h, ← Path.names_withSuffix hnames]
    rfl
  have hsame : r.output = r.input ↔ Path.stem last ++ ".asm" = last := by
    constructor
    · intro heq
      have hlast := congrArg Path.names (houtput.symm.trans heq)
      rw [hnames] at hlast
      exact List.singleton_inj.mp (List.append_inj_right' hlast rfl)
    · intro hlast
      rw [houtput, hlast, ← hnames]
  rw [hsame, Path.stem_append_eq_iff]
  constructor
  · rintro ⟨base, hbase, rfl⟩
    exact ⟨front, base, hnames, hbase⟩
  · rintro ⟨front', base, hnames', hbase⟩
    exact ⟨base, hbase, List.singleton_inj.mp (List.append_inj_right' (hnames.symm.trans hnames') rfl)⟩

/-- What the command does to its input, on every lawful system, where words are accepted that name no output.

    * The input holds what it held, unless assembly is made and the path of the output leads to the input.
    * If it does and the assembly is written, then the input holds the assembly, and held something else.
    * The path of the output is that of the input just if the last name of the input has the suffix already, and
      then it leads to the input. -/
theorem run_keeps_input_unless {σ : Type} {system : System (StateM σ)} {files : Files σ}
    (hlawful : system.Lawful files) {reader : Reader (StateM σ)} {words : List String} {s s' : σ} {r : Request}
    (haccepted : (reader words).run s = (.ok r, s)) (houtput : r.output? = none) (setting : Option String)
    {code : Nat} (hrun : (run system reader words setting).run s = (code, s')) {file : files.File}
    {before : List UInt8} (hfile : files.leads s r.input.text = some file)
    (hbefore : files.bytes s file = some before) :
    (files.bytes s' file = some before ∨ files.leads s' r.output.text = some file ∧
      ∃ source t assembly, r.Opens system (r.options setting) s source t ∧
        r.Makes (r.options setting) source assembly) ∧
    (∀ source t assembly u, r.Opens system (r.options setting) s source t →
      r.Makes (r.options setting) source assembly →
      (system.write r.output.text assembly).run t = (.ok (), u) →
      files.leads s' r.output.text = some file →
        files.bytes s' file = some (bytesOf assembly) ∧ bytesOf assembly ≠ before) ∧
    (r.output = r.input ↔ ∃ front base, r.input.names = front ++ [base ++ ".asm"] ∧ base ≠ "") ∧
    (r.output = r.input → files.leads s' r.output.text = some file) := by
  rw [run_of_accepted haccepted] at hrun
  refine ⟨?_, ?_, output_eq_input_iff houtput, fun hsame => ?_⟩
  · rcases Request.same_or_makes_of_run hlawful hrun with hsame | ⟨source, t, assembly, hopens, hmakes⟩
    · left
      rw [hsame.bytes, hbefore]
    · have hwrites := Request.writes_of_run hlawful hrun hopens hmakes (Prod.eta _).symm
      rcases hwrites.bytes file with hbytes | ⟨hleads, -⟩
      · exact .inl (hbytes.trans hbefore)
      · exact .inr ⟨hleads, source, t, assembly, hopens, hmakes⟩
  · intro source t assembly u hopens hmakes hwrite hleads
    have hwrites := Request.writes_of_run hlawful hrun hopens hmakes hwrite
    refine ⟨hwrites.bytes_of_complete rfl hleads (hwrites.bytes_ne_none ?_), ?_⟩
    · rw [hbefore]
      exact Option.some_ne_none before
    · obtain ⟨bytes, _, hread, hsource, -⟩ := hopens
      obtain rfl : bytes = before := hlawful.bytes (congrArg Prod.fst hread) hfile hbefore
      rintro rfl
      exact sourceText_ne_assembly hmakes.2 hsource
  · rw [hsame]
    rcases Request.same_or_makes_of_run hlawful hrun with hkept | ⟨source, t, assembly, hopens, hmakes⟩
    · rw [hkept.leads, hfile]
    · exact (Request.writes_of_run hlawful hrun hopens hmakes (Prod.eta _).symm).leads_of_some hfile

/-- A session with two source texts under names of assembly, of which the first has assembly. -/
def misnamed : Session where
  files := { entries := [(["a.asm"], .file (bytesOf "exit 7")), (["b.asm"], .file (bytesOf "@"))] }

/-- To compile the first destroys it; to compile the second does not. -/
theorem run_keeps_input_unless_misnamed :
    (Session.view.bytes misnamed ["a.asm"] = some (bytesOf "exit 7") ∧
      Session.view.bytes ((run Session.system (readWords Session.system) ["-c", "a.asm"] none).run misnamed).2
        ["a.asm"] = some (bytesOf annotatedExit) ∧ bytesOf annotatedExit ≠ bytesOf "exit 7") ∧
    Session.view.bytes ((run Session.system (readWords Session.system) ["-c", "b.asm"] none).run misnamed).2
      ["b.asm"] = some (bytesOf "@") := by
  have hsorted : sortWords ["-c", "a.asm"] = .ok ⟨[.flag .comments], ["a.asm"]⟩ := by decide +kernel
  have hsorted' : sortWords ["-c", "b.asm"] = .ok ⟨[.flag .comments], ["b.asm"]⟩ := by decide +kernel
  have hfirst := @readWords_annotating _ Session.system _ misnamed hsorted rfl
  have hsecond := @readWords_annotating _ Session.system _ misnamed hsorted' rfl
  have hopens : (annotating "a.asm").Opens Session.system ⟨true⟩ misnamed "exit 7" misnamed :=
    @opens_annotating _ _ _ _ (bytesOf "exit 7") _ rfl rfl
  have hopens' : (annotating "b.asm").Opens Session.system ⟨true⟩ misnamed "@" misnamed :=
    @opens_annotating _ _ _ _ (bytesOf "@") _ rfl rfl
  have htarget : misnamed.files.target "a.asm" = .ok ["a.asm"] := rfl
  have hwrite := Session.run_write_of_ok (@Session.write_of_target _ _ annotatedExit _ htarget)
  obtain ⟨-, hlost, hsuffix, hsame⟩ :=
    run_keeps_input_unless Session.lawful hfirst rfl none (Prod.eta _).symm rfl rfl
  obtain ⟨hkept, -⟩ := run_keeps_input_unless Session.lawful hsecond rfl none (Prod.eta _).symm rfl rfl
  have hleads := hsame (hsuffix.mpr ⟨[], "a", rfl, by decide⟩)
  refine ⟨⟨rfl, hlost _ _ _ _ hopens ⟨rfl, assembly?_exitSeven _⟩ hwrite hleads⟩, hkept.resolve_right ?_⟩
  rintro ⟨-, source, t, assembly, hopens'', hmakes⟩
  obtain ⟨rfl, -⟩ := hopens''.unique hopens'
  exact hmakes.not_meets ⟨_, diagnostic?_atSign _ _⟩

end Command

end ZebLang

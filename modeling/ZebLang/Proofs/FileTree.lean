/-
  A session is a lawful system.

  A text is written to the place that its path names (`target`): a name in a directory that exists.  The way to
  the directory leads through directories only, and the place is none.  So whatever led somewhere leads there
  after the text is written (`walk_put`), and whatever leads somewhere new leads to the place (`walk_of_put`).
-/

import ZebLang.FileTree
import ZebLang.Proofs.System

namespace ZebLang

namespace FileTree

/-! ## A file in a place -/

section Put

variable {t : FileTree} {place : List String} (bytes : List UInt8)

theorem lookup_filter_of_ne (entries : List (List String × Entry)) {other : List String}
    (h : other ≠ place) : (entries.filter (·.1 != place)).lookup other = entries.lookup other := by
  induction entries with
  | nil => rfl
  | cons entry rest ih =>
    by_cases hentry : entry.1 = place
    · -- what is dropped is not what is looked for
      have hother : (other == entry.1) = false := beq_false_of_ne (hentry ▸ h)
      rw [List.filter_cons_of_neg (by simp [hentry]), ih, List.lookup_cons, hother]
    · rw [List.filter_cons_of_pos (by simpa using hentry), List.lookup_cons, List.lookup_cons, ih]

/-- `put` leaves all other places alone. -/
theorem entry?_put_of_ne {other : List String} (h : other ≠ place) :
    entry? (t.put place bytes) other = t.entry? other := by
  cases other with
  | nil => rfl
  | cons name rest =>
    show List.lookup (name :: rest) ((place, Entry.file bytes) :: t.entries.filter (·.1 != place)) = _
    rw [List.lookup_cons, beq_false_of_ne h]
    exact lookup_filter_of_ne t.entries h

theorem entry?_put_self (h : place ≠ []) : entry? (t.put place bytes) place = some (.file bytes) := by
  cases place with
  | nil => exact absurd rfl h
  | cons name rest => exact List.lookup_cons_self

end Put

/-! ## The way to a place -/

/-- `LeadsTo t start piece next`: where a piece of a path leads from a directory. -/
inductive LeadsTo (t : FileTree) (start : List String) (piece : String) : List String → Prop where
  | stay (hpiece : piece = "" ∨ piece = ".") : LeadsTo t start piece start
  | up (hpiece : piece = "..") : LeadsTo t start piece start.dropLast
  | down (hpiece : piece ∉ ["", ".", ".."]) (hlimit : piece.utf8ByteSize ≤ nameLimit)
      (hentry : t.entry? (start ++ [piece]) ≠ none) : LeadsTo t start piece (start ++ [piece])

section Walk

variable {t : FileTree} {path : String}

/-- `walk` leads somewhere piece by piece, each from a directory. -/
theorem walk_cons_iff {start place : List String} {piece : String} {rest : List String} :
    t.walk path start (piece :: rest) = .ok place ↔
      t.entry? start = some .directory ∧
        ∃ next, t.LeadsTo start piece next ∧ t.walk path next rest = .ok place := by
  rw [walk]
  constructor
  · intro h
    split at h
    next => cases h
    next hstart =>
      refine ⟨Decidable.not_not.mp hstart, ?_⟩
      split at h
      next hstay => exact ⟨start, .stay hstay, h⟩
      next hstay =>
        split at h
        next hup => exact ⟨_, .up hup, h⟩
        next hup =>
          split at h
          next => cases h
          next hlimit =>
            split at h
            next => cases h
            next hentry =>
              refine ⟨_, .down ?_ (Nat.not_lt.mp hlimit) hentry, h⟩
              simpa [not_or, and_assoc] using And.intro hstay hup
  · rintro ⟨hstart, next, hleads, hrest⟩
    rw [if_neg (not_not_intro hstart)]
    cases hleads with
    | stay hpiece => rw [if_pos hpiece]; exact hrest
    | up hpiece =>
      subst hpiece
      rw [if_neg (by decide), if_pos rfl]
      exact hrest
    | down hpiece hlimit hentry =>
      simp only [List.mem_cons, List.not_mem_nil, or_false, not_or] at hpiece
      rw [if_neg (not_or.mpr ⟨hpiece.1, hpiece.2.1⟩), if_neg hpiece.2.2, if_neg (Nat.not_lt.mpr hlimit),
        if_neg hentry]
      exact hrest

/-- `walk` one part of a path after another. -/
theorem walk_append {start folder place : List String} {front back : List String}
    (hfront : t.walk path start front = .ok folder) (hback : t.walk path folder back = .ok place) :
    t.walk path start (front ++ back) = .ok place := by
  induction front generalizing start with
  | nil =>
    cases hfront
    exact hback
  | cons piece rest ih =>
    obtain ⟨hstart, next, hleads, hrest⟩ := walk_cons_iff.mp hfront
    exact walk_cons_iff.mpr ⟨hstart, next, hleads, ih hrest⟩

section Put

variable {filled : List String} (bytes : List UInt8) (hne : filled ≠ [])
include hne

/-- `LeadsTo` is kept by `put`. -/
theorem LeadsTo.put {start next : List String} {piece : String} (h : t.LeadsTo start piece next) :
    (t.put filled bytes).LeadsTo start piece next := by
  cases h with
  | stay hpiece => exact .stay hpiece
  | up hpiece => exact .up hpiece
  | down hpiece hlimit hentry =>
    refine .down hpiece hlimit ?_
    by_cases hnext : start ++ [piece] = filled
    · rw [hnext, entry?_put_self bytes hne]
      exact Option.some_ne_none _
    · rwa [entry?_put_of_ne bytes hnext]

/-- `walk` leads where it led after `put`, if the file does not replace a directory. -/
theorem walk_put {start place : List String} {pieces : List String}
    (hfile : t.entry? filled ≠ some .directory) (h : t.walk path start pieces = .ok place) :
    (t.put filled bytes).walk path start pieces = .ok place := by
  induction pieces generalizing start with
  | nil => exact h
  | cons piece rest ih =>
    obtain ⟨hstart, next, hleads, hrest⟩ := walk_cons_iff.mp h
    refine walk_cons_iff.mpr ⟨?_, next, hleads.put bytes hne, ih hrest⟩
    have hother : start ≠ filled := by
      rintro rfl
      exact hfile hstart
    rw [entry?_put_of_ne bytes hother]
    exact hstart

/-- `walk` after `put` leads where it led, or to the file. -/
theorem walk_of_put {start place : List String} {pieces : List String}
    (h : (t.put filled bytes).walk path start pieces = .ok place) :
    t.walk path start pieces = .ok place ∨ place = filled := by
  -- a file is no directory, so no way leads through it
  have hself : ∀ {other}, entry? (t.put filled bytes) other = some .directory → other ≠ filled := by
    rintro other hother rfl
    cases (entry?_put_self bytes hne).symm.trans hother
  induction pieces generalizing start with
  | nil => exact .inl h
  | cons piece rest ih =>
    obtain ⟨hstart, next, hleads, hrest⟩ := walk_cons_iff.mp h
    by_cases hnext : next = filled
    · right
      subst hnext
      cases rest with
      | nil =>
        cases hrest
        rfl
      | cons piece' rest =>
        obtain ⟨hnext, -⟩ := walk_cons_iff.mp hrest
        exact absurd rfl (hself hnext)
    · refine (ih hrest).imp_left fun hrest => walk_cons_iff.mpr ⟨?_, next, ?_, hrest⟩
      · rwa [entry?_put_of_ne bytes (hself hstart)] at hstart
      · cases hleads with
        | stay hpiece => exact .stay hpiece
        | up hpiece => exact .up hpiece
        | down hpiece hlimit hentry =>
          rw [entry?_put_of_ne bytes hnext] at hentry
          exact .down hpiece hlimit hentry

end Put

end Walk

/-! ## Writing -/

section Write

variable {t : FileTree} {path text : String}

/-- `locate` succeeds on a path that is short enough, not empty and leads somewhere by `walk`. -/
theorem locate_eq_ok_iff {place : List String} : t.locate path = .ok place ↔
    path.utf8ByteSize < pathLimit ∧ path ≠ "" ∧
      t.walk path (t.origin path) (Path.pieces path) = .ok place := by
  unfold locate
  split
  · next hlimit =>
    refine iff_of_false (fun h => ?_) fun h => Nat.not_le.mpr h.1 hlimit
    cases h
  · next hlimit =>
    split
    · next hempty =>
      refine iff_of_false (fun h => ?_) fun h => h.2.1 hempty
      cases h
    · next hempty =>
      rw [and_iff_right (Nat.not_le.mp hlimit), and_iff_right hempty]

/-- `pieces` of a path has a last one, if only an empty one. -/
theorem exists_pieces (path : String) : ∃ front name, Path.pieces path = front ++ [name] := by
  have hne : ∀ chars taken, Path.piecesFrom taken chars ≠ [] := by
    intro chars
    induction chars with
    | nil => exact fun taken => List.cons_ne_nil _ _
    | cons c rest ih =>
      intro taken
      rw [Path.piecesFrom]
      split
      · exact List.cons_ne_nil _ _
      · exact ih _
  exact ⟨_, _, (List.dropLast_concat_getLast (hne path.toList [])).symm⟩

/-- `Names t path folder name`: the path names `name` in the directory `folder`. -/
structure Names (t : FileTree) (path : String) (folder : List String) (name : String) : Prop where
  limit : path.utf8ByteSize < pathLimit
  walk : ∃ front, Path.pieces path = front ++ [name] ∧ t.walk path (t.origin path) front = .ok folder
  folder : t.entry? folder = some .directory
  proper : name ∉ ["", ".", ".."]
  length : name.utf8ByteSize ≤ nameLimit

/-- `target` is a name in a directory, where no directory stands. -/
theorem names_of_target {place : List String} (h : t.target path = .ok place) :
    ∃ folder name, t.Names path folder name ∧ place = folder ++ [name] ∧
      t.entry? place ≠ some .directory := by
  obtain ⟨front, name, hpieces⟩ := exists_pieces path
  unfold target at h
  dsimp only at h
  rw [hpieces, List.getLastD_concat, List.dropLast_concat] at h
  split at h
  next => cases h
  next hlimit =>
    split at h
    next =>
      cases hlocate : t.locate path with
      | ok place =>
        rw [hlocate] at h
        cases h
      | error e =>
        rw [hlocate] at h
        cases h
    next hname =>
      cases hwalk : t.walk path (t.origin path) front with
      | error e =>
        rw [hwalk] at h
        cases h
      | ok folder =>
        rw [hwalk] at h
        change (if t.entry? folder ≠ some Entry.directory then _ else _) = _ at h
        split at h
        next => cases h
        next hfolder =>
          split at h
          next => cases h
          next hlength =>
            split at h
            next => cases h
            next hplace =>
              cases h
              have hproper : name ∉ ["", ".", ".."] := by simpa using hname
              exact ⟨folder, name, ⟨Nat.not_le.mp hlimit, ⟨front, hpieces, hwalk⟩,
                Decidable.not_not.mp hfolder, hproper, Nat.not_lt.mp hlength⟩, rfl, hplace⟩

namespace Names

variable {folder : List String} {name : String} (h : t.Names path folder name)
include h

/-- `Names`: the path leads to the name as soon as something stands there. -/
theorem locate (hentry : t.entry? (folder ++ [name]) ≠ none) : t.locate path = .ok (folder ++ [name]) := by
  obtain ⟨front, hpieces, hwalk⟩ := h.walk
  refine locate_eq_ok_iff.mpr ⟨h.limit, ?_, ?_⟩
  · rintro rfl
    have hlast := List.append_inj_right' (show [] ++ [""] = front ++ [name] from hpieces) rfl
    cases hlast
    exact h.proper (by simp)
  · rw [hpieces]
    exact walk_append hwalk (walk_cons_iff.mpr ⟨h.folder, _, .down h.proper h.length hentry, rfl⟩)

/-- `Names` is kept by `put` where no directory stands. -/
theorem put {place : List String} (bytes : List UInt8) (hne : place ≠ [])
    (hfile : t.entry? place ≠ some .directory) : (t.put place bytes).Names path folder name := by
  obtain ⟨front, hpieces, hwalk⟩ := h.walk
  refine ⟨h.limit, ⟨front, hpieces, walk_put bytes hne hfile hwalk⟩, ?_, h.proper, h.length⟩
  have hother : folder ≠ place := by
    rintro rfl
    exact hfile h.folder
  rw [entry?_put_of_ne bytes hother, h.folder]

end Names

/-- `locate` leads where it led after `put`, or it led nowhere and leads to the place of the new file. -/
theorem locate_put {place : List String} (bytes : List UInt8) (hne : place ≠ [])
    (hfile : t.entry? place ≠ some .directory) (p : String) :
    (locate (t.put place bytes) p).toOption = (t.locate p).toOption ∨
      (t.locate p).toOption = none ∧ (locate (t.put place bytes) p).toOption = some place := by
  cases hbefore : t.locate p with
  | ok found =>
    obtain ⟨hlimit, hempty, hwalk⟩ := locate_eq_ok_iff.mp hbefore
    have hafter : locate (t.put place bytes) p = .ok found :=
      locate_eq_ok_iff.mpr ⟨hlimit, hempty, walk_put bytes hne hfile hwalk⟩
    rw [hafter]
    exact .inl rfl
  | error e =>
    cases hafter : locate (t.put place bytes) p with
    | error e' => exact .inl rfl
    | ok found =>
      obtain ⟨hlimit, hempty, hwalk⟩ := locate_eq_ok_iff.mp hafter
      rcases walk_of_put bytes hne hwalk with hwalk | rfl
      · cases hbefore.symm.trans (locate_eq_ok_iff.mpr ⟨hlimit, hempty, hwalk⟩)
      · exact .inr ⟨rfl, rfl⟩

end Write

end FileTree

/-! ## Sessions -/

/-- `bytes?`: the bytes that are kept. -/
def Entry.bytes? : Entry → Option (List UInt8)
  | file bytes => some bytes
  | directory | null => none

namespace Session

/-- `view`: the files of a session; a file is its place. -/
def view : Files Session where
  File := List String
  leads s path := (s.files.locate path).toOption
  bytes s place := (s.files.entry? place).bind Entry.bytes?

section Write

variable {s : Session} {path text : String} {place : List String}

/-- `write` to a path without a `target` is refused and changes nothing. -/
theorem run_write_of_error {e : SystemError} (h : s.files.target path = .error e) :
    (system.write path text).run s = (.error (.system e), s) := by
  have hwrite : s.files.write path text = .error e := by
    unfold FileTree.write
    rw [h]
    rfl
  simp only [system, StateT.run_bind, StateT.run_get, pure_bind, hwrite]
  rfl

/-- `write` to a path with a `target` changes the files. -/
theorem run_write_of_ok {files : FileTree} (h : s.files.write path text = .ok files) :
    (system.write path text).run s = (.ok (), { s with files }) := by
  simp only [system, StateT.run_bind, StateT.run_get, pure_bind, h]
  rfl

theorem write_of_target (h : s.files.target path = .ok place) : s.files.write path text =
    .ok (if s.files.entry? place = some .null then s.files else s.files.put place (bytesOf text)) := by
  unfold FileTree.write
  rw [h]
  simp only [bind, Except.bind]
  split
  · rfl
  · rfl

/-- `Writes` holds of `put` at the `target` of the path. -/
theorem writes_put (h : s.files.target path = .ok place) (complete : Prop) :
    view.Writes path text complete s { s with files := s.files.put place (bytesOf text) } := by
  obtain ⟨folder, name, hnames, rfl, hfile⟩ := FileTree.names_of_target h
  have hne : folder ++ [name] ≠ [] := List.append_ne_nil_of_right_ne_nil _ (List.cons_ne_nil _ _)
  have hself := @FileTree.entry?_put_self s.files _ (bytesOf text) hne
  have hheld : view.bytes { s with files := s.files.put (folder ++ [name]) (bytesOf text) } (folder ++ [name]) =
      some (bytesOf text) := congrArg (Option.bind · Entry.bytes?) hself
  have hleads : view.leads { s with files := s.files.put (folder ++ [name]) (bytesOf text) } path =
      some (folder ++ [name]) := by
    have hlocate := (hnames.put (bytesOf text) hne hfile).locate (by rw [hself]; exact Option.some_ne_none _)
    exact congrArg Except.toOption hlocate
  refine ⟨fun p => ?_, fun file => ?_, fun _ => ⟨_, hleads, .inr hheld⟩⟩
  · rw [hleads]
    exact FileTree.locate_put (bytesOf text) hne hfile p
  · by_cases hother : file = folder ++ [name]
    · subst hother
      exact .inr ⟨hleads, _, hheld, List.prefix_rfl⟩
    · exact .inl (congrArg (Option.bind · Entry.bytes?) (FileTree.entry?_put_of_ne _ hother))

/-- `read` gives what the file holds. -/
theorem eq_of_read {bytes held : List UInt8} (hread : ((system.read path).run s).1 = .ok bytes)
    (hleads : view.leads s path = some place) (hheld : view.bytes s place = some held) : bytes = held := by
  change (s.files.read path).mapError Refusal.system = .ok bytes at hread
  change (s.files.locate path).toOption = some place at hleads
  change (s.files.entry? place).bind Entry.bytes? = some held at hheld
  unfold FileTree.read at hread
  cases hlocate : s.files.locate path with
  | error e =>
    rw [hlocate] at hleads
    cases hleads
  | ok found =>
    rw [hlocate] at hleads hread
    cases hleads
    cases hentry : s.files.entry? place with
    | none =>
      rw [hentry] at hheld
      cases hheld
    | some entry =>
      rw [hentry] at hheld
      cases entry with
      | file bytes' =>
        simp only [bind, Except.bind, hentry] at hread
        cases hheld
        cases hread
        rfl
      | directory => cases hheld
      | null => cases hheld

end Write

/-- `Lawful` holds of a session. -/
theorem lawful : system.Lawful view where
  read path s := .refl view s
  print stream text s := by
    cases stream with
    | output => exact ⟨rfl, rfl⟩
    | error => exact ⟨rfl, rfl⟩
  write path text s := by
    cases htarget : s.files.target path with
    | error e =>
      rw [run_write_of_error htarget]
      refine ⟨fun _ => .inl rfl, fun _ => .inl rfl, fun hok => ?_⟩
      cases hok
    | ok place =>
      rw [run_write_of_ok (write_of_target htarget)]
      by_cases hnull : s.files.entry? place = some .null
      · rw [if_pos hnull]
        refine ⟨fun _ => .inl rfl, fun _ => .inl rfl, fun _ => ⟨place, ?_, .inl ?_⟩⟩
        · obtain ⟨folder, name, hnames, rfl, -⟩ := FileTree.names_of_target htarget
          exact congrArg Except.toOption (hnames.locate (by rw [hnull]; exact Option.some_ne_none _))
        · exact congrArg (Option.bind · Entry.bytes?) hnull
      · rw [if_neg hnull]
        exact writes_put htarget _
  bytes := eq_of_read

end Session

end ZebLang

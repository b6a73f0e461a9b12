/-
  What the command takes for granted of a system.

  Nothing is said about how files are kept.  `Files` says which file a path leads to, links followed, and which
  bytes a file holds; two paths may lead to one file, and a path may lead to a file that does not exist yet.
  Reading and printing leave the files as they are (`Files.Same`).  Writing changes one file at most, that
  which the path of the output leads to (`Files.Writes`).  A write that is refused may have begun: the file is
  emptied first, and then filled from the start.

  What may change composes: a write among steps that keep the files changes what the write changes
  (`Writes.of_same`).
-/

import ZebLang.System

namespace ZebLang

variable {σ : Type}

/-- `Files σ`: the files in the states of a system. -/
structure Files (σ : Type) where
  File : Type
  /-- The file that a path leads to, links followed. -/
  leads : σ → String → Option File
  /-- The bytes of a file; a device or a directory has none. -/
  bytes : σ → File → Option (List UInt8)

namespace Files

/-- `Same s t`: every path leads where it led, and every file holds what it held. -/
structure Same (files : Files σ) (s t : σ) : Prop where
  leads : files.leads t = files.leads s
  bytes : files.bytes t = files.bytes s

/-- `Writes path text complete s t`: what writing `text` to `path` may change from `s` to `t`.  If it is
    `complete`, all of the text is in the file. -/
structure Writes (files : Files σ) (path text : String) (complete : Prop) (s t : σ) : Prop where
  /-- A path that led somewhere still leads there; one that led nowhere may lead to the file of `path`. -/
  leads : ∀ p, files.leads t p = files.leads s p ∨
    files.leads s p = none ∧ files.leads t p = files.leads t path
  /-- Another file holds what it held; the file of `path` may hold a beginning of the text. -/
  bytes : ∀ file, files.bytes t file = files.bytes s file ∨
    files.leads t path = some file ∧ ∃ held, files.bytes t file = some held ∧ held <+: bytesOf text
  /-- There is a file of `path` then, and it holds the text unless it is a device. -/
  whole : complete → ∃ file, files.leads t path = some file ∧
    (files.bytes t file = none ∨ files.bytes t file = some (bytesOf text))

variable {files : Files σ} {s t u : σ} {path text : String} {complete : Prop}

theorem Same.refl (files : Files σ) (s : σ) : files.Same s s := ⟨rfl, rfl⟩

theorem Same.trans (h : files.Same s t) (h' : files.Same t u) : files.Same s u :=
  ⟨h'.leads.trans h.leads, h'.bytes.trans h.bytes⟩

/-- `Writes` among steps that keep the files. -/
theorem Writes.of_same {s' t' : σ} (hbefore : files.Same s s') (h : files.Writes path text complete s' t')
    (hafter : files.Same t' t) : files.Writes path text complete s t := by
  refine ⟨?_, ?_, ?_⟩
  · rw [hafter.leads, ← hbefore.leads]
    exact h.leads
  · rw [hafter.leads, hafter.bytes, ← hbefore.bytes]
    exact h.bytes
  · rw [hafter.leads, hafter.bytes]
    exact h.whole

/-- `Writes` keeps the file that a path leads to. -/
theorem Writes.leads_of_some (h : files.Writes path text complete s t) {p : String} {file : files.File}
    (hfile : files.leads s p = some file) : files.leads t p = some file := by
  rcases h.leads p with hsame | ⟨hnone, -⟩
  · rw [hsame, hfile]
  · cases hnone.symm.trans hfile

/-- `Writes`: a file with bytes still has bytes. -/
theorem Writes.bytes_ne_none (h : files.Writes path text complete s t) {file : files.File}
    (hheld : files.bytes s file ≠ none) : files.bytes t file ≠ none := by
  rcases h.bytes file with hsame | ⟨-, held, hsome, -⟩
  · rwa [hsame]
  · rw [hsome]
    exact Option.some_ne_none held

/-- `Writes`, if `complete`: a file with bytes to which the path leads holds the whole text. -/
theorem Writes.bytes_of_complete (h : files.Writes path text complete s t) (hcomplete : complete)
    {file : files.File} (hfile : files.leads t path = some file) (hheld : files.bytes t file ≠ none) :
    files.bytes t file = some (bytesOf text) := by
  obtain ⟨found, hleads, hbytes⟩ := h.whole hcomplete
  cases hleads.symm.trans hfile
  exact hbytes.resolve_left hheld

end Files

/-- `system.Lawful files`: what the command takes for granted of the system. -/
structure System.Lawful (system : System (StateM σ)) (files : Files σ) : Prop where
  read : ∀ path s, files.Same s ((system.read path).run s).2
  print : ∀ stream text s, files.Same s ((system.print stream text).run s).2
  write : ∀ path text s, files.Writes path text (((system.write path text).run s).1 = .ok ()) s
    ((system.write path text).run s).2
  /-- What is read of a file is what it holds. -/
  bytes : ∀ {path s bytes file held}, ((system.read path).run s).1 = .ok bytes →
    files.leads s path = some file → files.bytes s file = some held → bytes = held

end ZebLang

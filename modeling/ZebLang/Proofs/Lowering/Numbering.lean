/-
  The numbers of loops and printing sequences.

  The calls of a program can be listed without lowering it, the argument of a call before the call
  (`callSites`).  The number of a call is how many calls of the same function come before it (`numbered`), and
  each call has a group of labels with its number.  These groups, in this order, are all the labels of the
  program behind the one where it starts.

  1. Code has the labels of its calls (`Lowers.labels`, `LowersAll.labels`): one case for each rule.
  2. The labels of one function, picked out of all, have the numbers from zero on, without a gap and in
     order (`filter_labelsFor`).
  3. A call stands in the list before every call that it lies in (`pairwise_sites`), so of two calls of one
     function the inner one has the smaller number.
  4. Jumps stay in the code of their loop or printing sequence, so they lead to labels of the program
     (`Resolved`).
-/

import Mathlib.Data.List.Basic
import ZebLang.Proofs.Lowering.Labels

namespace ZebLang

/-! ## Calls of a program -/

/-- A call in a program: the `path` to it, down from the statement list, and the `function` that is called.
    -/
structure Site where
  path : List Nat
  function : Option String
  deriving DecidableEq, Repr

/-- `d.sites path`: the calls in `d`, which is at `path`; arguments come before the calls around them. -/
def Datum.sites (path : List Nat) : Datum → List Site
  | .exit _ e | .assign _ _ e | .loop _ _ e => e.sites (path ++ [0])
  | .binary _ left _ right => left.sites (path ++ [0]) ++ right.sites (path ++ [1])
  | .call _ name argument => argument.sites (path ++ [0]) ++ [⟨path, name.word?⟩]
  | _ => []

/-- `sitesFrom i statements`: the calls in statements that are counted from `i`. -/
def sitesFrom (i : Nat) : List Datum → List Site
  | [] => []
  | d :: rest => d.sites [i] ++ sitesFrom (i + 1) rest

/-- The calls in a statement list. -/
def callSites (statements : List Datum) : List Site := sitesFrom 0 statements

/-- `inner.Within outer`: the call `inner` is in the argument of the call `outer`. -/
def Site.Within (inner outer : Site) : Prop := outer.path <+: inner.path ∧ outer.path ≠ inner.path

/-! ## Numbers -/

/-- `callsOf function sites`: how many of the calls call `function`. -/
def callsOf (function : Option String) (sites : List Site) : Nat :=
  sites.countP fun s => s.function = function

/-- `numbered before sites`: each call with its number, which counts the calls of the same function in front
    of it, those in `before` included. -/
def numbered : List Site → List Site → List (Site × Nat)
  | _, [] => []
  | before, s :: rest => (s, callsOf s.function before) :: numbered (s :: before) rest

/-- `groupOf function n`: the labels of call number `n` of a function. -/
def groupOf : Option String → Nat → List Label
  | some "range", n => [.loop n, .loopEnd n]
  | some "print", n => [.printDigits n, .printNext n, .printWrite n]
  | _, _ => []

/-- `labelsFor before sites`: the labels of the calls `sites`, group by group. -/
def labelsFor (before sites : List Site) : List Label :=
  (numbered before sites).flatMap fun call => groupOf call.1.function call.2

/-- `numbered` over `sites ++ sites'`: the calls `sites` count as calls before `sites'`. -/
theorem numbered_append (before sites sites' : List Site) :
    numbered before (sites ++ sites') =
      numbered before sites ++ numbered (sites.reverse ++ before) sites' := by
  induction sites generalizing before with
  | nil => rfl
  | cons s rest ih =>
    rw [List.cons_append, numbered, numbered, ih, List.reverse_cons, List.append_assoc]
    rfl

/-- `labelsFor` over `sites ++ sites'`, as `numbered`. -/
theorem labelsFor_append (before sites sites' : List Site) :
    labelsFor before (sites ++ sites') =
      labelsFor before sites ++ labelsFor (sites.reverse ++ before) sites' := by
  unfold labelsFor
  rw [numbered_append, List.flatMap_append]

/-- The numbers of the next loop and of the next printing sequence after some calls. -/
def countersOf (sites : List Site) : Counters := ⟨callsOf (some "range") sites, callsOf (some "print") sites⟩

/-! ## Labels of code -/

/-- `Numbers c code c' sites`: behind calls counted by `c`, the labels of `code` are those of `sites`, and
    the counters are `c'` after it. -/
def Numbers (c : Counters) (code : List Item) (c' : Counters) (sites : List Site) : Prop :=
  ∀ before, c = countersOf before →
    labelsOf code = labelsFor before sites ∧ c' = countersOf (sites.reverse ++ before)

/-- `Numbers` composes: code after code, calls after calls. -/
theorem Numbers.append {c₁ c₂ c₃ : Counters} {code code' : List Item} {sites sites' : List Site}
    (h : Numbers c₁ code c₂ sites) (h' : Numbers c₂ code' c₃ sites') :
    Numbers c₁ (code ++ code') c₃ (sites ++ sites') := by
  intro before hbefore
  obtain ⟨hlabels, hmid⟩ := h before hbefore
  obtain ⟨hlabels', hafter⟩ := h' _ hmid
  refine ⟨?_, ?_⟩
  · rw [labelsOf_append, labelsFor_append, hlabels, hlabels']
  · rw [List.reverse_append, List.append_assoc, hafter]

/-- `Numbers` for code without labels and no calls. -/
theorem numbers_nil {c : Counters} {code : List Item} (h : labelsOf code = []) : Numbers c code c [] :=
  fun _ hbefore => ⟨h, hbefore⟩

/-- `printItems` has the labels of one call of `print`. -/
theorem numbers_print (c : Counters) (path : List Nat) :
    Numbers c (printItems c.prints) { c with prints := c.prints + 1 } [⟨path, some "print"⟩] := by
  rintro before rfl
  refine ⟨rfl, ?_⟩
  simp [countersOf, callsOf]

/-- `rangeItems` has the labels of one call of `range`. -/
theorem numbers_range (c : Counters) (path : List Nat) :
    Numbers c (rangeItems c.loops) { c with loops := c.loops + 1 } [⟨path, some "range"⟩] := by
  rintro before rfl
  refine ⟨rfl, ?_⟩
  simp [countersOf, callsOf]

/-- `Numbers` for the code of a statement or an expression and its `sites`, by induction on how it is
    lowered. -/
theorem Lowers.labels {slots : List (String × Nat)} {depth : Nat} {d : Datum} {c c' : Counters}
    {code : List Item} (h : Lowers slots depth d c code c') :
    ∀ path, Numbers c code c' (d.sites path) := by
  induction h with
  | literal hmin hmax => exact fun _ => numbers_nil rfl
  | reference hslot => exact fun _ => numbers_nil rfl
  | binary hleft hright hoperator ihleft ihright =>
    intro path
    rw [Datum.sites, ← List.append_nil (Datum.sites (path ++ [1]) _)]
    exact (ihleft _).append ((ihright _).append (numbers_nil rfl))
  | print hargument ih => exact fun path => (ih _).append (numbers_print _ path)
  | range hargument ih => exact fun path => (ih _).append (numbers_range _ path)

/-- `Numbers` for the code of a statement list and its `sitesFrom`. -/
theorem LowersAll.labels {slots : List (String × Nat)} {depth : Nat} {statements : List Datum}
    {c c' : Counters} {code : List Item} (h : LowersAll slots depth statements c code c') :
    ∀ i, Numbers c code c' (sitesFrom i statements) := by
  induction h with
  | nil => exact fun _ => numbers_nil rfl
  | exit hvalue hrest ih =>
    intro i
    have hexit := (@numbers_nil _ exitItems rfl).append (ih (i + 1))
    exact (hvalue.labels _).append hexit
  | bind hbinds hvalue hrest ih =>
    intro i
    cases hbinds with
    | assign => exact (hvalue.labels _).append (ih (i + 1))
    | loop => exact (hvalue.labels _).append (ih (i + 1))

/-! ## One family of labels -/

/-- The labels of loops. -/
def Label.isOfLoop : Label → Bool
  | loop _ | loopEnd _ => true
  | _ => false

/-- The labels of printing sequences. -/
def Label.isOfPrint : Label → Bool
  | printDigits _ | printNext _ | printWrite _ => true
  | _ => false

/-- `Picks p function`: the labels of calls of `function` pass the test `p`, and no others do. -/
structure Picks (p : Label → Bool) (function : Option String) : Prop where
  own : ∀ n, (groupOf function n).filter p = groupOf function n
  other : ∀ f n, f ≠ function → (groupOf f n).filter p = []

theorem picks_loop : Picks Label.isOfLoop (some "range") := by
  refine ⟨fun _ => rfl, fun f n hf => ?_⟩
  unfold groupOf
  split
  · exact absurd rfl hf
  · rfl
  · rfl

theorem picks_print : Picks Label.isOfPrint (some "print") := by
  refine ⟨fun _ => rfl, fun f n hf => ?_⟩
  unfold groupOf
  split
  · rfl
  · exact absurd rfl hf
  · rfl

theorem callsOf_cons (function : Option String) (s : Site) (sites : List Site) :
    callsOf function (s :: sites) = callsOf function sites + if s.function = function then 1 else 0 := by
  unfold callsOf
  rw [List.countP_cons]
  simp

/-- `labelsFor`, filtered to one function: its groups from the number of its calls in `before` on, without a
    gap. -/
theorem filter_labelsFor {p : Label → Bool} {function : Option String} (hp : Picks p function)
    (before sites : List Site) :
    (labelsFor before sites).filter p =
      (List.range' (callsOf function before) (callsOf function sites)).flatMap (groupOf function) := by
  induction sites generalizing before with
  | nil => rfl
  | cons s rest ih =>
    have hhead : labelsFor before (s :: rest) =
        groupOf s.function (callsOf s.function before) ++ labelsFor (s :: before) rest := rfl
    rw [hhead, List.filter_append, ih, callsOf_cons, callsOf_cons]
    by_cases hs : s.function = function
    · rw [if_pos hs, hs, hp.own, List.range'_succ]
      rfl
    · rw [if_neg hs, hp.other _ _ hs]
      rfl

/-! ## Order of numbers -/

/-- Two paths that differ in their last step are prefixes of no common path. -/
theorem eq_of_common_place {path place : List Nat} {i j : Nat} (hi : path ++ [i] <+: place)
    (hj : path ++ [j] <+: place) : i = j := by
  have hlength : (path ++ [i]).length = (path ++ [j]).length := by simp
  have hsame := (List.prefix_of_prefix_length_le hi hj (Nat.le_of_eq hlength)).eq_of_length hlength
  exact List.singleton_inj.mp (List.append_cancel_left hsame)

/-- The `sites` of a datum at `path` have paths that go on from `path`. -/
theorem path_prefix_of_mem_sites {d : Datum} {s : Site} : ∀ {path}, s ∈ d.sites path → path <+: s.path := by
  have hstep : ∀ {path : List Nat} {i : Nat} {place : List Nat}, path ++ [i] <+: place → path <+: place :=
    fun h => (List.prefix_append _ _).trans h
  intro path hs
  induction d using Datum.isStandard.induct generalizing path with
  | case1 _ e ih | case2 _ _ e ih | case3 _ _ e ih => exact hstep (ih hs)
  | case4 _ left _ right ihleft ihright =>
    rcases List.mem_append.mp hs with hs | hs
    · exact hstep (ihleft hs)
    · exact hstep (ihright hs)
  | case5 _ name argument ih =>
    rcases List.mem_append.mp hs with hs | hs
    · exact hstep (ih hs)
    · obtain rfl := List.mem_singleton.mp hs
      exact List.prefix_rfl
  | case6 d =>
    rw [Datum.sites] at hs
    · cases hs
    all_goals assumption

/-- `sites` lists no call before one that is in its argument, and none twice. -/
theorem pairwise_sites (path : List Nat) (d : Datum) :
    (d.sites path).Pairwise fun s t => ¬s.path <+: t.path := by
  induction d using Datum.isStandard.induct generalizing path with
  | case1 _ e ih | case2 _ _ e ih | case3 _ _ e ih => exact ih _
  | case4 _ left _ right ihleft ihright =>
    -- the ways to the two operands part here
    refine List.pairwise_append.mpr ⟨ihleft _, ihright _, fun s hs t ht hpath => ?_⟩
    have hparts := eq_of_common_place ((path_prefix_of_mem_sites hs).trans hpath)
      (path_prefix_of_mem_sites ht)
    cases hparts
  | case5 _ name argument ih =>
    refine List.pairwise_append.mpr ⟨ih _, List.pairwise_singleton _ _, fun s hs t ht hpath => ?_⟩
    -- the way to the call itself is too short to lead into its argument
    obtain rfl := List.mem_singleton.mp ht
    have hlength : (path ++ [0]).length ≤ path.length :=
      ((path_prefix_of_mem_sites hs).trans hpath).length_le
    rw [List.length_append, List.length_singleton] at hlength
    omega
  | case6 d =>
    rw [Datum.sites]
    · exact .nil
    all_goals assumption

/-- `sitesFrom i` has paths that start with an index from `i` on. -/
theorem path_of_mem_sitesFrom {statements : List Datum} {s : Site} :
    ∀ {i}, s ∈ sitesFrom i statements → ∃ j, i ≤ j ∧ [j] <+: s.path := by
  induction statements with
  | nil => exact fun hs => nomatch hs
  | cons d rest ih =>
    intro i hs
    rcases List.mem_append.mp hs with hs | hs
    · exact ⟨i, Nat.le_refl i, path_prefix_of_mem_sites hs⟩
    · obtain ⟨j, hj, hpath⟩ := ih hs
      exact ⟨j, by omega, hpath⟩

/-- `sitesFrom` lists no call before one that is in its argument, and none twice. -/
theorem pairwise_sitesFrom (statements : List Datum) :
    ∀ i, (sitesFrom i statements).Pairwise fun s t => ¬s.path <+: t.path := by
  induction statements with
  | nil => exact fun _ => .nil
  | cons d rest ih =>
    intro i
    refine List.pairwise_append.mpr ⟨pairwise_sites [i] d, ih (i + 1), fun s hs t ht hpath => ?_⟩
    obtain ⟨j, hj, hplace⟩ := path_of_mem_sitesFrom ht
    have hsame := @eq_of_common_place [] _ i j ((path_prefix_of_mem_sites hs).trans hpath) hplace
    omega

theorem map_fst_numbered (before sites : List Site) : (numbered before sites).map Prod.fst = sites := by
  induction sites generalizing before with
  | nil => rfl
  | cons s rest ih => rw [numbered, List.map_cons, ih]

/-- `numbered before` counts on from the calls in `before`. -/
theorem le_of_mem_numbered {sites : List Site} {s : Site} {n : Nat} :
    ∀ {before}, (s, n) ∈ numbered before sites → callsOf s.function before ≤ n := by
  induction sites with
  | nil => exact fun h => nomatch h
  | cons t rest ih =>
    intro before h
    rcases List.mem_cons.mp h with h | h
    · cases h
      exact Nat.le_refl _
    · have hle := ih h
      rw [callsOf_cons] at hle
      omega

/-- `numbered` is strictly increasing on the calls of one function. -/
theorem pairwise_numbered (before sites : List Site) :
    (numbered before sites).Pairwise fun a b => a.1.function = b.1.function → a.2 < b.2 := by
  induction sites generalizing before with
  | nil => exact .nil
  | cons s rest ih =>
    refine List.pairwise_cons.mpr ⟨?_, ih (s :: before)⟩
    rintro ⟨t, n⟩ ht hsame
    have hle := le_of_mem_numbered ht
    rw [callsOf_cons, if_pos hsame, ← hsame] at hle
    exact hle

/-- A call `Within` another one of the same function has the smaller number. -/
theorem number_lt_of_within {statements : List Datum} {inner outer : Site × Nat}
    (hinner : inner ∈ numbered [] (callSites statements))
    (houter : outer ∈ numbered [] (callSites statements)) (hsame : inner.1.function = outer.1.function)
    (hwithin : inner.1.Within outer.1) : inner.2 < outer.2 := by
  have hpaths : (numbered [] (callSites statements)).Pairwise fun a b => ¬a.1.path <+: b.1.path := by
    have hsites := pairwise_sitesFrom statements 0
    rw [← map_fst_numbered [] (sitesFrom 0 statements), List.pairwise_map] at hsites
    exact hsites
  have hnumbers := pairwise_numbered [] (callSites statements)
  -- the outer call is neither before the inner one nor the same, so it is behind it
  obtain ⟨i, hi, rfl⟩ := List.getElem_of_mem hinner
  obtain ⟨j, hj, rfl⟩ := List.getElem_of_mem houter
  rcases Nat.lt_trichotomy i j with hlt | rfl | hgt
  · exact List.pairwise_iff_getElem.mp hnumbers i j hi hj hlt hsame
  · exact absurd rfl hwithin.2
  · exact absurd hwithin.1 (List.pairwise_iff_getElem.mp hpaths j i hj hi hgt)

/-! ## Jumps -/

/-- The name of the label to which a line jumps. -/
def Item.targetName? : Item → Option String
  | .instr (.jump _ target) => some target.text
  | _ => none

/-- The names of all labels to which lines jump. -/
def targetNames (items : List Item) : List String := items.filterMap Item.targetName?

/-- `targetNames` is kept by `Item.named`. -/
theorem targetNames_named (items : List Item) : targetNames (items.map Item.named) = targetNames items := by
  unfold targetNames
  rw [List.filterMap_map]
  congr 1
  funext item
  cases item with
  | instr i => cases i <;> rfl
  | _ => rfl

/-- `Resolved code`: every jump in `code` leads to a label of `code`. -/
def Resolved (code : List Item) : Prop := ∀ name ∈ targetNames code, name ∈ labelNames code

/-- `Resolved` is kept by putting code behind code. -/
theorem Resolved.append {code code' : List Item} (h : Resolved code) (h' : Resolved code') :
    Resolved (code ++ code') := by
  intro name hname
  unfold targetNames at hname
  unfold labelNames
  rw [List.filterMap_append, List.mem_append] at hname ⊢
  exact hname.imp (h name) (h' name)

/-- `Resolved` holds of code without jumps. -/
theorem resolved_straight {code : List Item} (h : targetNames code = []) : Resolved code := by
  intro name hname
  rw [h] at hname
  cases hname

theorem resolved_print (n : Nat) : Resolved (printItems n) := by
  have htargets : targetNames (printItems n) =
      [(Label.printDigits n).text, (Label.printNext n).text, (Label.printWrite n).text] := rfl
  have hlabels : labelNames (printItems n) =
      [(Label.printDigits n).text, (Label.printNext n).text, (Label.printWrite n).text] := rfl
  intro name hname
  rw [htargets] at hname
  rw [hlabels]
  exact hname

theorem resolved_range (n : Nat) : Resolved (rangeItems n) := by
  have htargets : targetNames (rangeItems n) = [(Label.loopEnd n).text, (Label.loop n).text] := rfl
  have hlabels : labelNames (rangeItems n) = [(Label.loop n).text, (Label.loopEnd n).text] := rfl
  intro name hname
  rw [htargets] at hname
  rw [hlabels]
  exact List.mem_reverse.mp hname

/-- `Resolved` holds of the code of every statement and expression. -/
theorem Lowers.resolved {slots : List (String × Nat)} {depth : Nat} {d : Datum} {c c' : Counters}
    {code : List Item} (h : Lowers slots depth d c code c') : Resolved code := by
  induction h with
  | literal hmin hmax => exact resolved_straight rfl
  | reference hslot => exact resolved_straight rfl
  | binary hleft hright hoperator ihleft ihright =>
    refine ihleft.append (ihright.append (resolved_straight ?_))
    rcases Lowering.arithmetic_cases hoperator with ⟨-, rfl⟩ | ⟨-, rfl⟩ | ⟨-, rfl⟩ <;> rfl
  | print hargument ih => exact ih.append (resolved_print _)
  | range hargument ih => exact ih.append (resolved_range _)

/-- `Resolved` holds of the code of every statement list. -/
theorem LowersAll.resolved {slots : List (String × Nat)} {depth : Nat} {statements : List Datum}
    {c c' : Counters} {code : List Item} (h : LowersAll slots depth statements c code c') :
    Resolved code := by
  induction h with
  | nil => exact resolved_straight rfl
  | exit hvalue hrest ih => exact hvalue.resolved.append ((resolved_straight rfl).append ih)
  | bind hbinds hvalue hrest ih => exact hvalue.resolved.append ih

/-! ## Programs -/

/-- The labels of a program that `lower` accepts: no two have one name, and every jump leads to one of them.
    Behind `_start` they are `labelsFor` the calls, group by group; so the labels of loops have the numbers
    from zero to the count of its ranges, those of printing sequences the numbers from zero to the count of
    its prints, both in order and without a gap.  A call in the argument of another comes before it, and has
    the smaller number if both call the same function; ranges and prints are counted apart. -/
theorem lower_numbers_labels {statements : List Datum} {text : String}
    (hstandard : ∀ d ∈ statements, d.isStandard = true)
    (haccepted : (lower false statements).text = .ok text) :
    ∃ items labels, assemble text = some items ∧ (labelNames items).Nodup ∧
      (∀ name ∈ targetNames items, name ∈ labelNames items) ∧
      labelNames items = "_start" :: labels.map Label.text ∧ labels = labelsFor [] (callSites statements) ∧
      labels.filter Label.isOfLoop =
        (List.range (callsOf (some "range") (callSites statements))).flatMap
          (fun n => [.loop n, .loopEnd n]) ∧
      (lower false statements).frame.loops = callsOf (some "range") (callSites statements) ∧
      labels.filter Label.isOfPrint =
        (List.range (callsOf (some "print") (callSites statements))).flatMap
          (fun n => [.printDigits n, .printNext n, .printWrite n]) ∧
      (lower false statements).frame.prints = callsOf (some "print") (callSites statements) ∧
      ((callSites statements).Pairwise fun s t => ¬t.Within s) ∧
      ∀ inner ∈ numbered [] (callSites statements), ∀ outer ∈ numbered [] (callSites statements),
        inner.1.function = outer.1.function → inner.1.Within outer.1 → inner.2 < outer.2 := by
  obtain ⟨code, hcode, hassemble, hnodup⟩ := lowersAll_of_lower hstandard haccepted
  obtain ⟨hlabels, hcounters⟩ := hcode.labels 0 [] rfl
  rw [List.append_nil] at hcounters
  have hcount : ∀ function, callsOf function (sitesFrom 0 statements).reverse =
      callsOf function (callSites statements) := fun _ => List.countP_reverse
  refine ⟨_, _, hassemble, ?_, ?_, ?_, rfl, ?_, ?_, ?_, ?_, ?_, ?_⟩
  · rw [labelNames_named]
    exact hnodup
  · rw [labelNames_named, targetNames_named]
    exact fun name hname => List.mem_cons_of_mem _ (hcode.resolved name hname)
  · rw [labelNames_named, callSites, ← hlabels, ← labelNames_eq]
    rfl
  · rw [filter_labelsFor picks_loop, List.range_eq_range']
    rfl
  · rw [← hcount]
    exact congrArg Counters.loops hcounters
  · rw [filter_labelsFor picks_print, List.range_eq_range']
    rfl
  · rw [← hcount]
    exact congrArg Counters.prints hcounters
  · exact (pairwise_sitesFrom statements 0).imp fun hpath hwithin => hpath hwithin.1
  · exact fun inner hinner outer houter => number_lt_of_within hinner houter

/-- `for i in range(range(print(2) + print(3)))`, `exit print(print(i))`. -/
def nestedProgram : List Datum :=
  let number (n : Int) : Datum := .literal {} (.int n)
  let print (e : Datum) : Datum := .call {} (.text "print") e
  let range (e : Datum) : Datum := .call {} (.text "range") e
  [.loop {} (.text "i") (range (range (.binary {} (print (number 2)) (.text "+") (print (number 3))))),
    .exit {} (print (print (.reference {} (.text "i"))))]

/-- The labels of `nestedProgram`, those of the inner range before those of the outer one. -/
theorem lower_numbers_nestedProgram :
    (∀ d ∈ nestedProgram, d.isStandard = true) ∧
      ∃ items, assemble (lower false nestedProgram).frame.text = some items ∧
        labelNames items = ["_start", "print0_digits", "print0_next", "print0_write", "print1_digits",
          "print1_next", "print1_write", "loop0", "exit0", "loop1", "exit1", "print2_digits", "print2_next",
          "print2_write", "print3_digits", "print3_next", "print3_write"] ∧
        (lower false nestedProgram).frame.loops = 2 ∧
        numbered [] (callSites nestedProgram) = [(⟨[0, 0, 0, 0, 0], some "print"⟩, 0),
          (⟨[0, 0, 0, 0, 1], some "print"⟩, 1), (⟨[0, 0, 0], some "range"⟩, 0), (⟨[0, 0], some "range"⟩, 1),
          (⟨[1, 0, 0], some "print"⟩, 2), (⟨[1, 0], some "print"⟩, 3)] := by
  have hstandard : ∀ d ∈ nestedProgram, d.isStandard = true := by decide
  have hfault : (lower false nestedProgram).fault = none := by decide +kernel
  have haccepted : (lower false nestedProgram).text = .ok (lower false nestedProgram).frame.text := by
    rw [Lowered.text, hfault]
  obtain ⟨items, labels, hassemble, -, -, hnames, hlabels, -, hloops, -⟩ :=
    lower_numbers_labels hstandard haccepted
  have hranges : callsOf (some "range") (callSites nestedProgram) = 2 := by decide
  have hgroups : labelsFor [] (callSites nestedProgram) = [.printDigits 0, .printNext 0, .printWrite 0,
      .printDigits 1, .printNext 1, .printWrite 1, .loop 0, .loopEnd 0, .loop 1, .loopEnd 1, .printDigits 2,
      .printNext 2, .printWrite 2, .printDigits 3, .printNext 3, .printWrite 3] := by decide
  refine ⟨hstandard, items, hassemble, ?_, hloops.trans hranges, by decide⟩
  rw [hnames, hlabels, hgroups]
  decide +kernel

/-- `x = range(print(1))`. -/
def printedRange : List Datum :=
  [.assign {} (.text "x") (.call {} (.text "range") (.call {} (.text "print") (.literal {} (.int 1))))]

/-- A call in the argument of another need not have the smaller number if they call different functions: the
    print and the range around it both have number zero. -/
theorem lower_numbers_printedRange :
    (lower false printedRange).fault = none ∧
      labelNames (itemsOf (lower false printedRange).frame.lines.toList) =
        ["print0_digits", "print0_next", "print0_write", "loop0", "exit0"] ∧
      ∃ inner ∈ numbered [] (callSites printedRange), ∃ outer ∈ numbered [] (callSites printedRange),
        inner.1.Within outer.1 ∧ ¬inner.2 < outer.2 := by
  refine ⟨by decide +kernel, by decide +kernel, ?_⟩
  refine ⟨(⟨[0, 0, 0], some "print"⟩, 0), by decide, (⟨[0, 0], some "range"⟩, 0), by decide, ?_, by decide⟩
  exact ⟨⟨[0], rfl⟩, by decide⟩

end ZebLang

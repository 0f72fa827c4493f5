import Mathlib.Data.List.Basic
import MarkdownLinks.FileTree

/-!
Writing a file changes the entry at the place where its path leads, and no other. The path leads there afterwards as well,
since all directories that it passes stay.
-/

namespace MarkdownLinks
namespace FileTree

variable {f g : FileTree} {path place : Path} {bytes : List UInt8} {entry : Option Entry}

theorem lookup_replace (entries : List (Path × Entry)) (place : Path) (e : Entry) (q : Path) :
    (entries.map fun x => if x.1 = place then (place, e) else x).lookup q =
      if q = place then (entries.lookup place).map fun _ => e else entries.lookup q := by
  induction entries with
  | nil => simp
  | cons x entries ih =>
    obtain ⟨key, value⟩ := x
    rw [List.map_cons, List.lookup_cons, List.lookup_cons]
    by_cases here : key = place
    · by_cases asked : q = place
      · simp [here, asked]
      · have other : (q == place) = false := by simpa using asked
        rw [if_pos here, List.lookup_cons, other, ih, if_neg asked, if_neg asked, here, other]
    · have other : (place == key) = false := by simpa using Ne.symm here
      rw [if_neg here, List.lookup_cons, ih, other]
      by_cases asked : q = place
      · simp [asked, other]
      · simp [asked]

theorem lookup_put (f : FileTree) (place : Path) (e : Entry) (q : Path) :
    (f.put place e).entries.lookup q = if q = place then some e else f.entries.lookup q := by
  have listed : f.entries.any (·.1 = place) = (f.entries.lookup place).isSome := by
    rw [Bool.eq_iff_iff, List.lookup_isSome_iff, List.any_eq_true]
    refine exists_congr fun x => and_congr_right fun _ => ?_
    rw [decide_eq_true_iff, beq_iff_eq, eq_comm]
  unfold put
  split
  · rename_i known
    rw [listed] at known
    obtain ⟨old, seen⟩ := Option.isSome_iff_exists.mp known
    rw [lookup_replace, seen]
    rfl
  · rename_i absent
    rw [listed, Option.not_isSome_iff_eq_none] at absent
    rw [List.lookup_append, List.lookup_cons]
    by_cases asked : q = place
    · simp [asked, absent]
    · have other : (q == place) = false := by simpa using asked
      simp [asked, other]

theorem entryAt_put {parts : List Text} (filled : parts ≠ []) (e : Entry) :
    (f.put place e).entryAt parts = if Path.inside parts = place then some e else f.entryAt parts := by
  have more : ¬ parts.isEmpty = true := by simpa using filled
  rw [entryAt, if_neg more, lookup_put, entryAt, if_neg more]

theorem ne_nil_of_entryAt {parts : List Text} (other : f.entryAt parts ≠ some .directory) : parts ≠ [] := by
  rintro rfl
  exact other rfl

/-! ### Following a path -/

/-- A name that is not followed further leads to what stands at its place. -/
theorem follow_last (f : FileTree) (base : List Text) {part : Text} (down : part ≠ ['.', '.'])
    (short : ¬ maxName < (Utf8.encode part).length) :
    f.follow 0 base [part] = .ok ⟨some (.inside (base ++ [part])), f.entryAt (base ++ [part])⟩ := by
  rw [follow, if_neg down, if_neg short, if_neg (Nat.lt_irrefl 0)]
  dsimp only
  cases seen : f.entryAt (base ++ [part]) with
  | none => rfl
  | some e =>
    cases e with
    | file bytes => rfl
    | directory =>
      change f.follow 0 (base ++ [part]) [] = _
      rw [follow, if_pos rfl, seen]

theorem follow_down (f : FileTree) (base : List Text) {part : Text} (rest : List Text) (down : part ≠ ['.', '.'])
    (short : ¬ maxName < (Utf8.encode part).length) (passed : f.entryAt (base ++ [part]) = some .directory) :
    f.follow 0 base (part :: rest) = f.follow 0 (base ++ [part]) rest := by
  conv_lhs => rw [follow, if_neg down, if_neg short, if_neg (Nat.lt_irrefl 0)]
  simp only [passed]

/-- How a path is followed from `base` on if its next name is `part`: up, to a place that is not known, to the last place or
into a directory. Any tree in which the directory is one is followed alike. -/
inductive Follows (f : FileTree) (found : Found) (outside : Nat) (base : List Text) (part : Text) : List Text → Prop
  | up {rest : List Text} {outside' : Nat} {at' : List Text} (later : f.follow outside' at' rest = .ok found)
      (alike : ∀ g : FileTree, g.follow outside base (part :: rest) = g.follow outside' at' rest) :
    Follows f found outside base part rest
  | unknown {rest : List Text} (lost : found = ⟨none, none⟩) : Follows f found outside base part rest
  | last (here : found = ⟨some (.inside (base ++ [part])), f.entryAt (base ++ [part])⟩)
      (alike : ∀ g : FileTree,
        g.follow outside base [part] = .ok ⟨some (.inside (base ++ [part])), g.entryAt (base ++ [part])⟩) :
    Follows f found outside base part []
  | down {rest : List Text} (passed : f.entryAt (base ++ [part]) = some .directory)
      (later : f.follow 0 (base ++ [part]) rest = .ok found)
      (alike : ∀ g : FileTree, g.entryAt (base ++ [part]) = some .directory →
        g.follow outside base (part :: rest) = g.follow 0 (base ++ [part]) rest) :
    Follows f found outside base part rest

theorem follows {found : Found} {outside : Nat} {base : List Text} {part : Text} {rest : List Text}
    (led : f.follow outside base (part :: rest) = .ok found) : Follows f found outside base part rest := by
  by_cases up : part = ['.', '.']
  · by_cases leaves : base.isEmpty || 0 < outside
    · have alike (g : FileTree) : g.follow outside base (part :: rest) = g.follow (outside + 1) [] rest := by
        rw [follow, if_pos up, if_pos leaves]
      exact .up (alike f ▸ led) alike
    · have alike (g : FileTree) : g.follow outside base (part :: rest) = g.follow 0 base.dropLast rest := by
        rw [follow, if_pos up, if_neg leaves]
      exact .up (alike f ▸ led) alike
  have short : ¬ maxName < (Utf8.encode part).length := by
    intro long
    rw [follow, if_neg up, if_pos long] at led
    exact nomatch led
  by_cases beyond : 0 < outside
  · rw [follow, if_neg up, if_neg short, if_pos beyond] at led
    split at led
    · exact .unknown (Except.ok.inj led).symm
    · exact nomatch led
  obtain rfl : outside = 0 := by omega
  cases rest with
  | nil =>
    rw [follow_last f base up short] at led
    exact .last (Except.ok.inj led).symm fun g => follow_last g base up short
  | cons next rest =>
    have passed : f.entryAt (base ++ [part]) = some .directory := by
      rw [follow, if_neg up, if_neg short, if_neg beyond] at led
      cases seen : f.entryAt (base ++ [part]) with
      | none =>
        simp only [seen] at led
        exact nomatch led
      | some e =>
        cases e with
        | file bytes =>
          simp only [seen] at led
          exact nomatch led
        | directory => rfl
    rw [follow_down f base _ up short passed] at led
    exact .down passed led fun g => follow_down g base _ up short

/-- A path leads to a place in the working directory, or to nothing that is known to be a file. -/
theorem follow_found {found : Found} {outside : Nat} {base parts : List Text}
    (led : f.follow outside base parts = .ok found) :
    (∃ ps, found = ⟨some (.inside ps), f.entryAt ps⟩) ∨ found.place = none ∧ ∀ bytes, found.entry ≠ some (.file bytes) := by
  induction parts generalizing outside base with
  | nil =>
    rw [follow] at led
    split at led
    · exact Or.inl ⟨base, (Except.ok.inj led).symm⟩
    · obtain rfl := Except.ok.inj led
      exact Or.inr ⟨rfl, fun bytes => by simp⟩
  | cons part rest ih =>
    cases follows led with
    | up later alike => exact ih later
    | unknown lost =>
      subst lost
      exact Or.inr ⟨rfl, fun bytes => by simp⟩
    | last here alike => exact Or.inl ⟨_, here⟩
    | down passed later alike => exact ih later

/-- A path that leads to a file, or to where one can be, leads there when that file has been written. -/
theorem follow_put {ps : List Text} {outside : Nat} {base parts : List Text} (other : f.entryAt ps ≠ some .directory)
    (led : f.follow outside base parts = .ok ⟨some (.inside ps), f.entryAt ps⟩) :
    (f.put (.inside ps) (.file bytes)).follow outside base parts = .ok ⟨some (.inside ps), some (.file bytes)⟩ := by
  have written : (f.put (.inside ps) (.file bytes)).entryAt ps = some (.file bytes) := by
    rw [entryAt_put (ne_nil_of_entryAt other), if_pos rfl]
  induction parts generalizing outside base with
  | nil =>
    rw [follow] at led ⊢
    by_cases within : outside = 0
    · rw [if_pos within] at led ⊢
      obtain ⟨here, -⟩ := Found.mk.inj (Except.ok.inj led)
      obtain rfl := (Path.mk.inj (Option.some.inj here)).2
      rw [written]
    · rw [if_neg within] at led
      exact nomatch (Found.mk.inj (Except.ok.inj led)).1
  | cons part rest ih =>
    cases follows led with
    | up later alike => rw [alike, ih later]
    | unknown lost => exact nomatch (Found.mk.inj lost).1
    | last here alike =>
      obtain ⟨there, -⟩ := Found.mk.inj here
      obtain rfl := (Path.mk.inj (Option.some.inj there)).2
      rw [alike, written]
    | down passed later alike =>
      -- The directories that are passed are not where the file is written.
      have stays : (f.put (.inside ps) (.file bytes)).entryAt (base ++ [part]) = some .directory := by
        rw [entryAt_put (by simp), if_neg, passed]
        intro same
        obtain rfl := (Path.mk.inj same).2
        exact other passed
      rw [alike _ stays, ih later]

/-! ### Reading and writing -/

/-- What writing to a path has done: the path leads to where it led, there is a file of these bytes now, and what is listed
elsewhere is as it was. -/
structure Overwritten (f : FileTree) (path : Path) (bytes : List UInt8) (g : FileTree) : Prop where
  change : ∃ place entry, f.find path = .ok ⟨some place, entry⟩ ∧ g.find path = .ok ⟨some place, some (.file bytes)⟩ ∧
    ∀ q ≠ place, g.entries.lookup q = f.entries.lookup q

/-- Where a path leads: it is listed itself, or it is followed. -/
theorem find_cases {found : Found} (led : f.find path = .ok found) : fault? path = none ∧
    ((∃ e, f.entries.lookup path = some e ∧ found = ⟨some path, some e⟩) ∨
      f.entries.lookup path = none ∧ f.follow (if path.root.isEmpty then 0 else 1) [] path.parts = .ok found) := by
  rw [find] at led
  split at led
  · exact nomatch led
  · rename_i sound
    refine ⟨sound, ?_⟩
    split at led
    · rename_i e listed
      exact Or.inl ⟨e, listed, (Except.ok.inj led).symm⟩
    · rename_i absent
      exact Or.inr ⟨absent, led⟩

theorem find_put (other : entry ≠ some .directory) (found : f.find path = .ok ⟨some place, entry⟩) :
    (f.put place (.file bytes)).find path = .ok ⟨some place, some (.file bytes)⟩ := by
  obtain ⟨sound, ⟨e, -, same⟩ | ⟨absent, led⟩⟩ := find_cases found
  · obtain ⟨here, -⟩ := Found.mk.inj same
    obtain rfl := Option.some.inj here
    rw [find, sound, lookup_put, if_pos rfl]
  · rcases follow_found led with ⟨ps, same⟩ | ⟨lost, -⟩
    · obtain ⟨here, rfl⟩ := Found.mk.inj same
      obtain rfl := Option.some.inj here
      rw [find, sound, lookup_put]
      by_cases own : path = .inside ps
      · rw [if_pos own, own]
      · rw [if_neg own, absent]
        exact follow_put other led
    · exact nomatch lost

theorem write_eq (led : f.find path = .ok ⟨some place, entry⟩) (other : entry ≠ some .directory) :
    f.write path bytes = .ok (f.put place (.file bytes)) := by
  rw [write, led]
  cases entry with
  | none => rfl
  | some e =>
    cases e with
    | file old => rfl
    | directory => exact absurd rfl other

theorem overwritten_of_write (written : f.write path bytes = .ok g) : f.Overwritten path bytes g := by
  cases led : f.find path with
  | error e =>
    rw [write, led] at written
    exact nomatch written
  | ok found =>
    obtain ⟨place, entry⟩ := found
    by_cases other : entry = some .directory
    · rw [write, led, other] at written
      exact nomatch written
    cases place with
    | none =>
      rw [write, led] at written
      cases entry with
      | none => exact nomatch written
      | some e =>
        cases e with
        | file old => exact nomatch written
        | directory => exact absurd rfl other
    | some place =>
      rw [write_eq led other] at written
      obtain rfl := Except.ok.inj written
      refine ⟨place, entry, led, find_put other led, fun q apart => ?_⟩
      rw [lookup_put, if_neg apart]

/-- A file that can be read can be written. -/
theorem write_of_read {old : List UInt8} (readable : f.read path = .ok old) (bytes : List UInt8) :
    ∃ g, f.write path bytes = .ok g := by
  cases led : f.find path with
  | error e =>
    rw [read, led] at readable
    exact nomatch readable
  | ok found =>
    obtain ⟨place, entry⟩ := found
    have file : entry = some (.file old) := by
      rw [read, led] at readable
      cases entry with
      | none => exact nomatch readable
      | some e =>
        cases e with
        | file known => rw [Except.ok.inj readable]
        | directory => exact nomatch readable
    subst file
    cases place with
    | some place => exact ⟨_, write_eq led (by simp)⟩
    | none =>
      obtain ⟨-, ⟨e, -, same⟩ | ⟨-, led⟩⟩ := find_cases led
      · exact nomatch (Found.mk.inj same).1
      · rcases follow_found led with ⟨ps, same⟩ | ⟨-, other⟩
        · exact nomatch (Found.mk.inj same).1
        · exact absurd rfl (other old)

end FileTree
end MarkdownLinks

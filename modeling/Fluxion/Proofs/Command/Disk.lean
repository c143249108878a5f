import Mathlib.Data.List.DropRight
import Fluxion.Command.Disk
import Fluxion.Path
import Fluxion.Proofs.Except

/-!
# Fluxion.Proofs.Command.Disk

What operations on a disk change.

Every change puts one entry in a place where there is no directory (`Disk.entry_put`), so all
directories stay (`Disk.Extends`), and a path that leads somewhere leads there ever after
(`Disk.Extends.locate`).

* `Disk.Grows`: some of the directories on a path were made, and nothing else was changed;
* `Disk.grows_makePath`: a directory and all above it;
* `Disk.write_eq_ok`, `Disk.copy_eq_ok`: files written;
* `Disk.locate_join`: where a name in a directory is.
-/

namespace Fluxion

/-! ## leading parts of paths -/

namespace Path

variable {p q r : List Char}

/-- A path goes through another one: what follows is cut off at a slash. -/
def Leads (p path : List Char) : Prop :=
  p ≠ [] ∧ ∃ rest, path = p ++ rest ∧
    (rest = [] ∨ rest.head? = some '/' ∨ p.getLast? = some '/')

theorem Leads.trans (h : Leads p q) (h' : Leads q r) : Leads p r := by
  obtain ⟨hp, rest, rfl, hrest⟩ := h
  obtain ⟨-, rest', rfl, hrest'⟩ := h'
  refine ⟨hp, rest ++ rest', List.append_assoc .., ?_⟩
  rcases hrest with rfl | hhead | hlast
  · simpa using hrest'
  · exact .inr (.inl (by simp [hhead]))
  · exact .inr (.inr hlast)

end Path

namespace Disk

variable {d d' d'' : Disk} {l m here : Location} {path source target text : String}

/-! ## entries -/

@[simp] theorem home_put (d : Disk) (l : Location) (e : Entry) : (d.put l e).home = d.home := rfl

/-- An entry put where there is no directory is all that changes. -/
theorem entry_put (hl : d.entry? l ≠ some .dir) (e : Entry) :
    entry? (d.put l e) m = if m = l then some e else d.entry? m := by
  have hhome : ¬l.isPrefixOf d.home = true := fun h => hl (if_pos h)
  have hput : (d.put l e).entries = d.entries.filter (·.1 != l) ++ [(l, e)] := rfl
  unfold entry?
  rw [home_put, hput, List.find?_append, List.find?_filter]
  by_cases hm : m = l
  · subst hm
    have hnone : d.entries.find? (fun x => decide ((x.1 != m) = true ∧ (x.1 == m) = true)) = none := by
      simp
    rw [hnone]
    simp [hhome]
  · have hother : (fun x : Location × Entry => decide ((x.1 != l) = true ∧ (x.1 == m) = true)) =
        (·.1 == m) := by
      funext x
      by_cases hx : x.1 = m <;> simp [hx, hm]
    rw [hother]
    simp [hm, Ne.symm hm]

/-- All directories are directories in the other disk as well, and the working directory is the
same. -/
structure Extends (d d' : Disk) : Prop where
  home : d'.home = d.home
  dir : ∀ {l}, d.entry? l = some .dir → d'.entry? l = some .dir

theorem extends_refl (d : Disk) : d.Extends d := ⟨rfl, id⟩

theorem Extends.trans (h : d.Extends d') (h' : d'.Extends d'') : d.Extends d'' :=
  ⟨h'.home.trans h.home, fun hl => h'.dir (h.dir hl)⟩

theorem extends_put (hl : d.entry? l ≠ some .dir) (e : Entry) : d.Extends (d.put l e) where
  home := rfl
  dir {m} hm := by
    rw [entry_put hl, if_neg, hm]
    rintro rfl
    exact hl hm

/-! ## paths -/

/-- A way through directories leads to the same place wherever these are directories.  The path is
only named in errors. -/
theorem Extends.follow (h : d.Extends d') {ns : List String} (path' : String)
    (hl : d.follow path here ns = .ok l) : d'.follow path' here ns = .ok l := by
  induction ns generalizing here with
  | nil => exact hl
  | cons name rest ih =>
    unfold Disk.follow at hl ⊢
    split at hl
    · cases hl
    · cases hl
    · next hdir =>
      rw [h.dir hdir]
      dsimp only
      split_ifs at hl ⊢ <;> exact ih hl

theorem follow_append (ns ms : List String) :
    d.follow path here (ns ++ ms) = d.follow path here ns >>= fun there => d.follow path there ms := by
  induction ns generalizing here with
  | nil => rfl
  | cons name rest ih =>
    simp only [List.cons_append, follow]
    split
    · rfl
    · rfl
    · split_ifs <;> first | exact ih | rfl

/-- What holds a name is a directory. -/
theorem follow_singleton {name : String} (hname : name ∉ ["", ".", ".."])
    (h : d.follow path here [name] = .ok l) : d.entry? here = some .dir ∧ l = here ++ [name] := by
  simp only [List.mem_cons, List.not_mem_nil, or_false, not_or] at hname
  obtain ⟨hempty, hdot, htwo⟩ := hname
  unfold follow at h
  split at h
  · cases h
  · cases h
  · next hdir =>
    rw [if_neg (by simp [hempty, hdot]), if_neg htwo] at h
    split_ifs at h
    exact ⟨hdir, (Except.ok.inj h).symm⟩

/-- A path that leads somewhere leads there as long as all directories stay. -/
theorem Extends.locate {r : Location × Bool} (h : d.Extends d') (hr : d.locate path = .ok r) :
    d'.locate path = .ok r := by
  unfold Disk.locate at hr ⊢
  rw [h.home]
  split_ifs at hr ⊢
  all_goals
    obtain ⟨l, hl, hr⟩ := bind_eq_ok.mp hr
    exact bind_eq_ok.mpr ⟨l, h.follow path hl, hr⟩

/-! ## directories that are made -/

/-- A path leads through a place. -/
def Through (d : Disk) (path : String) (l : Location) : Prop :=
  ∃ p trailing, Path.Leads p path.toList ∧ d.locate (String.ofList p) = .ok (l, trailing)

/-- A place is as before, or it is that of a directory that was made on a path. -/
def Kept (path : String) (d d' : Disk) (l : Location) : Prop :=
  d'.entry? l = d.entry? l ∨
    d.entry? l = none ∧ d'.entry? l = some .dir ∧ d'.Through path l

/-- Some of the directories on a path were made, and nothing else was changed. -/
structure Grows (path : String) (d d' : Disk) : Prop where
  home : d'.home = d.home
  kept : ∀ l, Kept path d d' l

theorem Grows.extends (h : Grows path d d') : d.Extends d' where
  home := h.home
  dir {l} hl := by
    rcases h.kept l with hsame | ⟨-, hdir, -⟩
    · rw [hsame, hl]
    · exact hdir

theorem Extends.through (h : d.Extends d') (hl : d.Through path l) : d'.Through path l := by
  obtain ⟨p, trailing, hp, hr⟩ := hl
  exact ⟨p, trailing, hp, h.locate hr⟩

theorem Grows.trans (h : Grows path d d') (h' : Grows path d' d'') : Grows path d d'' where
  home := h'.home.trans h.home
  kept l := by
    rcases h'.kept l with hsame' | ⟨hnone', hdir', hthrough'⟩
    · rcases h.kept l with hsame | ⟨hnone, hdir, hthrough⟩
      · exact .inl (hsame'.trans hsame)
      · exact .inr ⟨hnone, hsame'.trans hdir, h'.extends.through hthrough⟩
    · rcases h.kept l with hsame | ⟨-, hdir, -⟩
      · exact .inr ⟨hsame ▸ hnone', hdir', hthrough'⟩
      · rw [hdir] at hnone'
        cases hnone'

/-- The directories on a path are on every path that goes through it. -/
theorem Grows.mono {p q : List Char} (h : Grows (String.ofList p) d d') (hpq : Path.Leads p q) :
    Grows (String.ofList q) d d' where
  home := h.home
  kept l := by
    rcases h.kept l with hsame | ⟨hnone, hdir, p', trailing, hp', hr⟩
    · exact .inl hsame
    · rw [String.toList_ofList] at hp'
      refine .inr ⟨hnone, hdir, p', trailing, ?_, hr⟩
      rw [String.toList_ofList]
      exact hp'.trans hpq

theorem ne_empty_of_locate {r : Location × Bool} (h : d.locate path = .ok r) : path.toList ≠ [] := by
  intro hempty
  obtain rfl : path = "" := String.toList_inj.mp hempty
  cases h

theorem read_of_file (hl : d.locate path = .ok (l, false)) (hfile : d.entry? l = some (.file text))
    (hends : String.ofList (normalLineEnds text.toList) = text) : d.read path = .ok text := by
  have hfind : d.find path = .ok (.file text) := by
    refine bind_eq_ok.mpr ⟨_, hl, ?_⟩
    dsimp only
    rw [hfile]
    rfl
  rw [read, readRaw, hfind]
  exact congrArg Except.ok hends

/-- A file written elsewhere leaves a place as it is. -/
theorem Kept.put (h : Kept path d d' l) (hm : d'.entry? m ≠ some .dir) (hne : l ≠ m) (e : Entry) :
    Kept path d (d'.put m e) l := by
  rw [Kept, entry_put hm, if_neg hne]
  rcases h with hsame | ⟨hnone, hdir, hthrough⟩
  · exact .inl hsame
  · exact .inr ⟨hnone, hdir, (extends_put hm e).through hthrough⟩

/-- A file as it was before, in the place that its path leads to after. -/
def Held (d d' : Disk) (path text : String) : Prop :=
  ∃ l, d'.locate path = .ok (l, false) ∧ d.entry? l = some (.file text)

theorem Held.mono (h : Held d d' path text) (h' : d'.Extends d'') : Held d d'' path text := by
  obtain ⟨l, hl, hfile⟩ := h
  exact ⟨l, h'.locate hl, hfile⟩

/-- The last name of a path is all that follows its last slash. -/
theorem getLast?_splitOn (cs : List Char) :
    (cs.splitOn '/').getLast? = some (cs.rtakeWhile (· != '/')) := by
  have hparts := List.rdropWhile_append_rtakeWhile (p := (· != '/')) (l := cs)
  have htail : '/' ∉ cs.rtakeWhile (· != '/') := fun hmem => by
    simpa using List.mem_rtakeWhile_imp hmem
  rcases List.eq_nil_or_concat' (cs.rdropWhile (· != '/')) with hnil | ⟨above, c, hhead⟩
  · rw [hnil, List.nil_append] at hparts
    rw [hparts] at htail ⊢
    rw [List.splitOn_eq_singleton htail, List.getLast?_singleton]
  · have hne : cs.rdropWhile (· != '/') ≠ [] := by simp [hhead]
    have hlast := List.rdropWhile_last_not (· != '/') cs hne
    obtain rfl : c = '/' := by simpa [hhead] using hlast
    rw [hhead, List.append_assoc, List.singleton_append] at hparts
    have hsplit : cs.splitOn '/' = above.splitOn '/' ++ [cs.rtakeWhile (· != '/')] := by
      rw [← List.splitOn_eq_singleton htail, ← List.splitOn_append_cons_self, hparts]
    rw [hsplit, List.getLast?_concat]

/-- The names that a path is followed by: an empty one at the end only says that a directory is
meant. -/
def steps (path : String) : List String :=
  if (names path).getLast? = some "" then (names path).dropLast else names path

/-- Where a path starts. -/
def start (d : Disk) (path : String) : Location :=
  if path.toList.head? = some '/' then [] else d.home

theorem locate_eq_ok {trailing : Bool} : d.locate path = .ok (l, trailing) ↔
    path ≠ "" ∧ '\x00' ∉ path.toList ∧ path.utf8ByteSize ≤ maxPathBytes ∧
      d.follow path (d.start path) (steps path) = .ok l ∧
      decide ((names path).getLast? = some "") = trailing := by
  have heq : d.locate path =
      if path.isEmpty then .error (.notFound path)
      else if path.toList.contains '\x00' then .error .embeddedNull
      else if maxPathBytes < path.utf8ByteSize then .error (.nameTooLong path)
      else d.follow path (d.start path) (steps path) >>= fun there =>
        pure (there, decide ((names path).getLast? = some "")) := rfl
  rw [heq]
  split_ifs with hempty hnull hlong
  · simp_all
  · simp_all
  · simp only [false_iff, not_and]
    omega
  · have hempty : path ≠ "" := by simpa using hempty
    have hnull : '\x00' ∉ path.toList := by simpa using hnull
    simp only [ne_eq, hempty, not_false_eq_true, hnull, not_lt.mp hlong, true_and, bind_eq_ok,
      pure_eq_ok, Prod.mk.injEq]
    constructor
    · rintro ⟨_, hl, rfl, htrailing⟩
      exact ⟨hl, htrailing⟩
    · rintro ⟨hl, htrailing⟩
      exact ⟨l, hl, rfl, htrailing⟩

/-- A name in a directory comes after the steps to the directory. -/
theorem join_toList {dir name : String} (hdir : dir ≠ "") (hslash : '/' ∉ name.toList) :
    ∃ above, (Path.join dir name).toList = above ++ '/' :: name.toList ∧
      (above.splitOn '/').map String.ofList = steps dir := by
  have hne : dir.toList ≠ [] := fun h => hdir (String.toList_inj.mp h)
  have hhead : name.toList.head? ≠ some '/' := fun h => hslash (List.mem_of_head? h)
  obtain ⟨above, c, hdir'⟩ := (List.eq_nil_or_concat' dir.toList).resolve_left hne
  -- a slash at the end of the directory is not written twice, and is no step either
  by_cases hc : c = '/'
  · subst hc
    refine ⟨above, ?_, ?_⟩
    · simp [Path.join, hhead, hdir']
    · simp [steps, names, hdir', List.splitOn_append_cons_self]
  · refine ⟨above ++ [c], ?_, ?_⟩
    · simp [Path.join, hhead, hdir', hc, hdir]
    · have hlast : (names dir).getLast? ≠ some "" := by
        rw [names, List.getLast?_map, getLast?_splitOn, hdir',
          List.rtakeWhile_concat_pos _ _ _ (by simpa using hc)]
        simp
      rw [steps, if_neg hlast, names, hdir']

theorem exists_join (dir : String) {name : String} (hslash : '/' ∉ name.toList) :
    ∃ rest, Path.join dir name = dir ++ rest := by
  have hhead : name.toList.head? ≠ some '/' := fun h => hslash (List.mem_of_head? h)
  rw [Path.join, if_neg hhead]
  split_ifs
  · exact ⟨name, rfl⟩
  · exact ⟨"/" ++ name, String.append_assoc⟩

/-- Where a name in a directory is. -/
theorem locate_join {dir name : String} {trailing : Bool} (hdir : dir ≠ "")
    (hname : name ∉ ["", ".", ".."]) (hslash : '/' ∉ name.toList)
    (h : d.locate (Path.join dir name) = .ok (l, trailing)) :
    ∃ base trailing', d.locate dir = .ok (base, trailing') ∧ d.entry? base = some .dir ∧
      l = base ++ [name] ∧ trailing = false := by
  obtain ⟨above, hjoin, hsteps⟩ := join_toList hdir hslash
  have hempty : name ≠ "" := by
    rintro rfl
    simp at hname
  have hnames : names (Path.join dir name) = steps dir ++ [name] := by
    rw [names, hjoin, List.splitOn_append_cons_self, List.splitOn_eq_singleton hslash,
      List.map_append, hsteps]
    simp
  have hlast : (names (Path.join dir name)).getLast? ≠ some "" := by simp [hnames, hempty]
  obtain ⟨-, hnull, hlong, hfollow, rfl⟩ := locate_eq_ok.mp h
  rw [steps, if_neg hlast, hnames, follow_append] at hfollow
  obtain ⟨base, hbase, hfollow⟩ := bind_eq_ok.mp hfollow
  obtain ⟨hdirectory, rfl⟩ := follow_singleton hname hfollow
  obtain ⟨rest, hrest⟩ := exists_join dir hslash
  rw [hrest, String.toList_append, List.mem_append, not_or] at hnull
  rw [hrest, String.utf8ByteSize_append] at hlong
  have hstart : d.start (Path.join dir name) = d.start dir := by
    have hne : dir.toList ≠ [] := fun h => hdir (String.toList_inj.mp h)
    rw [start, start, hrest, String.toList_append, List.head?_append_of_ne_nil _ hne]
  rw [hstart] at hbase
  have hlocate : d.locate dir = .ok (base, decide ((names dir).getLast? = some "")) :=
    locate_eq_ok.mpr ⟨hdir, hnull.1, by omega, (extends_refl d).follow dir hbase, rfl⟩
  exact ⟨base, _, hlocate, hdirectory, rfl, by simpa using hlast⟩

end Disk

end Fluxion

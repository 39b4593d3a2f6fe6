import Promela.FileSystem
import Promela.Proofs.Token.Front

/-! Files: where a path leads, where it leads with another extension to its last name, and what is changed by
writing and renaming. -/
namespace Promela

namespace Path

theorem splitSlashes_ne_nil (cs : List Char) : splitSlashes cs ≠ [] := by
  cases cs with
  | nil => exact List.cons_ne_nil _ _
  | cons c cs =>
    rw [splitSlashes]
    split
    · exact List.cons_ne_nil _ _
    · split <;> exact List.cons_ne_nil _ _

theorem splitSlashes_append (cs ds : List Char) :
    splitSlashes (cs ++ '/' :: ds) = splitSlashes cs ++ splitSlashes ds := by
  induction cs with
  | nil => rfl
  | cons c cs ih =>
    simp only [List.cons_append, splitSlashes]
    rw [ih]
    split
    · rfl
    · obtain ⟨w, ws, h⟩ := List.exists_cons_of_ne_nil (splitSlashes_ne_nil cs)
      rw [h]
      rfl

theorem splitSlashes_of_not_mem {w : List Char} (h : '/' ∉ w) : splitSlashes w = [w] := by
  induction w with
  | nil => rfl
  | cons c w ih =>
    rw [List.mem_cons, not_or] at h
    simp [splitSlashes, Ne.symm h.1, ih h.2]

/-- The names between slashes, as characters. -/
def namesOf (cs : List Char) : List (List Char) := (splitSlashes cs).filter (· ≠ [])

theorem names_ofString (s : String) : (ofString s).names = (namesOf s.toList).map String.ofList := rfl

theorem namesOf_append (cs ds : List Char) : namesOf (cs ++ '/' :: ds) = namesOf cs ++ namesOf ds := by
  simp [namesOf, splitSlashes_append]

theorem namesOf_slashes {cs : List Char} (h : ∀ c ∈ cs, c = '/') : namesOf cs = [] := by
  induction cs with
  | nil => rfl
  | cons c cs ih =>
    obtain rfl := h c List.mem_cons_self
    exact (namesOf_append [] cs).trans (ih fun d hd => h d (List.mem_cons_of_mem _ hd))

theorem namesOf_name {w slashes : List Char} (h : '/' ∉ w) (hne : w ≠ []) (hslashes : ∀ c ∈ slashes, c = '/') :
    namesOf (w ++ slashes) = [w] := by
  have hw : namesOf w = [w] := by simp [namesOf, splitSlashes_of_not_mem h, hne]
  cases slashes with
  | nil => rw [List.append_nil, hw]
  | cons c cs =>
    obtain rfl := hslashes c List.mem_cons_self
    rw [namesOf_append, hw, namesOf_slashes fun d hd => hslashes d (List.mem_cons_of_mem _ hd), List.append_nil]

/-- A path is what leads to its last name, that name, and the slashes behind it. -/
structure Split (cs front name slashes : List Char) : Prop where
  eq : cs = front ++ (name ++ slashes)
  front : ∀ c ∈ front.getLast?, c = '/'
  ne_nil : name ≠ []
  not_mem : '/' ∉ name
  slashes : ∀ c ∈ slashes, c = '/'

namespace Split

variable {cs front name slashes : List Char}

theorem exists_of_namesOf (h : namesOf cs ≠ []) : ∃ front name slashes, Split cs front name slashes := by
  obtain ⟨s, r, hr, -, hs, hnext⟩ := Lexer.exists_run (· == '/') cs.reverse
  obtain ⟨w, f, rfl, -, hw, hf⟩ := Lexer.exists_run (· != '/') r
  have hcs : cs = f.reverse ++ (w.reverse ++ s.reverse) := by
    rw [← List.reverse_reverse cs, hr]
    simp
  refine ⟨f.reverse, w.reverse, s.reverse, hcs, fun c hc => ?_, fun hnil => ?_, fun hmem => ?_, fun c hc => ?_⟩
  · rw [List.getLast?_reverse] at hc
    simpa using hf c hc
  · obtain rfl : w = [] := List.reverse_eq_nil_iff.mp hnil
    -- without a name there is nothing in front of the slashes either
    obtain rfl : f = [] := by
      cases f with
      | nil => rfl
      | cons c f => exact absurd (hf c rfl) (by simpa using hnext c rfl)
    exact h (hcs ▸ namesOf_slashes fun c hc => by simpa using hs c (List.mem_reverse.mp hc))
  · simpa using hw '/' (List.mem_reverse.mp hmem)
  · simpa using hs c (List.mem_reverse.mp hc)

variable (h : Split cs front name slashes)
include h

theorem namesOf_eq : namesOf cs = namesOf front ++ [name] := by
  rw [h.eq]
  rcases List.eq_nil_or_concat front with rfl | ⟨ds, c, rfl⟩
  · exact namesOf_name h.not_mem h.ne_nil h.slashes
  · obtain rfl := h.front c (by simp)
    rw [List.concat_append, namesOf_append, namesOf_name h.not_mem h.ne_nil h.slashes, List.concat_eq_append,
      namesOf_append, @namesOf_slashes [] nofun, List.append_nil]

theorem absolute_eq : (cs.head? == some '/') = (front.head? == some '/') := by
  obtain ⟨c, name, rfl⟩ := List.exists_cons_of_ne_nil h.ne_nil
  rw [h.eq]
  cases front with
  | nil => simpa using fun hc : c = '/' => h.not_mem (hc ▸ List.mem_cons_self)
  | cons d ds => rfl

end Split

section

variable {name behind : List Char} (hname : '/' ∉ name) (hbehind : ∀ c ∈ behind.head?, c = '/')
include hname hbehind

theorem takeWhile_name : (name ++ behind).takeWhile (· != '/') = name ∧
    (name ++ behind).dropWhile (· != '/') = behind := by
  refine Lexeme.takeWhile_run (fun c hc => ?_) fun c hc => by simp [hbehind c hc]
  simpa using fun heq : c = '/' => hname (heq ▸ hc)

/-- Either a name, read backwards, has no extension, or it has one, and then what is left without it ends in the
dot. -/
theorem withoutExtension_cases :
    (stem name = name ∧ withoutExtension (name ++ behind) = name ++ behind) ∨
      ∃ extension, '.' ∉ extension ∧ stem name ≠ [] ∧ name = extension ++ '.' :: stem name ∧
        withoutExtension (name ++ behind) = '.' :: stem name ++ behind := by
  unfold withoutExtension stem
  rw [(takeWhile_name hname hbehind).1, (takeWhile_name hname hbehind).2]
  obtain ⟨extension, rest, rfl, -, hextension, hrest⟩ := Lexer.exists_run (· != '.') name
  rw [(Lexeme.takeWhile_run hextension hrest).2]
  match rest, hrest with
  | [], _ => exact .inl ⟨rfl, rfl⟩
  | [c], hrest =>
    obtain rfl : c = '.' := by simpa using hrest c rfl
    exact .inl ⟨rfl, rfl⟩
  | c :: d :: rest, hrest =>
    obtain rfl : c = '.' := by simpa using hrest c rfl
    exact .inr ⟨extension, fun hmem => by simpa using hextension _ hmem, List.cons_ne_nil _ _, rfl, rfl⟩

theorem withExtension_of_trimmed {path : String} (extension : String)
    (htrimmed : trimmed (withoutExtension path.toList.reverse) = name ++ behind)
    (hplain : name ∉ [[], ['.'], ['.', '.']]) :
    (withExtension path extension).toList = behind.reverse ++ ((stem name).reverse ++ '.' :: extension.toList) := by
  unfold withExtension
  dsimp only
  rw [htrimmed, (takeWhile_name hname hbehind).1, (takeWhile_name hname hbehind).2, if_neg hplain]
  simp

end

theorem eq_stem {name : List Char} (h : '/' ∉ name) :
    stem name = name ∨ ∃ extension, '.' ∉ extension ∧ name = extension ++ '.' :: stem name := by
  obtain ⟨hstem, -⟩ | ⟨extension, hdot, -, heq, -⟩ := @withoutExtension_cases name [] h (by simp)
  · exact .inl hstem
  · exact .inr ⟨extension, hdot, heq⟩

theorem not_mem_stem {name : List Char} (h : '/' ∉ name) : '/' ∉ stem name := by
  obtain hstem | ⟨extension, -, heq⟩ := eq_stem h
  · rwa [hstem]
  · intro hmem
    rw [heq] at h
    exact h (List.mem_append_right _ (List.mem_cons_of_mem _ hmem))

theorem trimmed_name {name : List Char} (hname : '/' ∉ name) (hne : name ≠ []) (hdot : name ≠ ['.'])
    (behind : List Char) : trimmed (name ++ behind) = name ++ behind := by
  obtain ⟨c, cs, rfl⟩ := List.exists_cons_of_ne_nil hne
  rw [List.mem_cons, not_or] at hname
  refine trimmed.eq_3 _ (fun ds hds => hname.1 (List.cons.inj hds).1.symm) fun ds hds => ?_
  obtain ⟨rfl, hcs⟩ := List.cons.inj hds
  cases cs with
  | nil => exact hdot rfl
  | cons d cs => exact hname.2 ((List.cons.inj hcs).1 ▸ List.mem_cons_self)

theorem trimmed_slashes {slashes cs : List Char} (h : ∀ c ∈ slashes, c = '/') :
    trimmed (slashes ++ cs) = trimmed cs := by
  induction slashes with
  | nil => rfl
  | cons c slashes ih =>
    obtain rfl := h c List.mem_cons_self
    rw [List.cons_append, trimmed, ih fun d hd => h d (List.mem_cons_of_mem _ hd)]

theorem stem_dot {name : List Char} (h : name ≠ []) : stem ('.' :: name) = name := by
  obtain ⟨c, cs, rfl⟩ := List.exists_cons_of_ne_nil h
  rfl

section

variable {path : String} {front name slashes : List Char} (h : Split path.toList front name slashes)
include h

/-- What is left of a path without its extension, slashes and dots at its end: all up to the last name, and that name, or
the part of it that ends in the dot. -/
theorem trimmed_cases (hdot : name ≠ ['.']) :
    trimmed (withoutExtension path.toList.reverse) = name.reverse ++ front.reverse ∨
      stem name.reverse ≠ [] ∧ withoutExtension path.toList.reverse = '.' :: stem name.reverse ++ front.reverse ∧
        trimmed (withoutExtension path.toList.reverse) = '.' :: stem name.reverse ++ front.reverse := by
  have hname : '/' ∉ name.reverse := by simpa using h.not_mem
  have hfront : ∀ c ∈ front.reverse.head?, c = '/' := by simpa [List.head?_reverse] using h.front
  have hpath : path.toList.reverse = slashes.reverse ++ (name.reverse ++ front.reverse) := by simp [h.eq]
  have hsame : trimmed (name.reverse ++ front.reverse) = name.reverse ++ front.reverse :=
    trimmed_name hname (by simpa using h.ne_nil) (by simpa [List.reverse_eq_iff] using hdot) _
  rcases List.eq_nil_or_concat slashes with rfl | ⟨ss, c, rfl⟩
  · rw [List.reverse_nil, List.nil_append] at hpath
    have hcases := withoutExtension_cases hname hfront
    rw [← hpath] at hcases
    obtain ⟨-, hbare⟩ | ⟨-, -, hne, -, hbare⟩ := hcases
    · exact .inl (by rw [hbare, hpath, hsame])
    · have hstem : '/' ∉ '.' :: stem name.reverse := by simpa using not_mem_stem hname
      exact .inr ⟨hne, hbare, by rw [hbare, trimmed_name hstem (List.cons_ne_nil _ _) (by simpa using hne)]⟩
  · -- behind a slash there is no extension
    obtain rfl := h.slashes c (by simp)
    have hbare : withoutExtension path.toList.reverse = path.toList.reverse := by
      rw [hpath]
      simp [withoutExtension]
    left
    rw [hbare, hpath, trimmed_slashes fun d hd => h.slashes d (List.mem_reverse.mp hd), hsame]

/-- With another extension a path has the same front, and its last name is what stands before the last dot, and the
extension. A name of two dots and more that has no other dot loses what is behind the dots. -/
theorem toList_withExtension (hplain : name ∉ [['.'], ['.', '.']]) (extension : String) :
    (withExtension path extension).toList = front ++ ((stem name.reverse).reverse ++ '.' :: extension.toList) ∨
      (withExtension path extension).toList = front ++ ['.', '.'] := by
  have hname : '/' ∉ name.reverse := by simpa using h.not_mem
  have hfront : ∀ c ∈ front.reverse.head?, c = '/' := by simpa [List.head?_reverse] using h.front
  have hdot : name ≠ ['.'] := fun heq => hplain (by simp [heq])
  rcases trimmed_cases h hdot with htrimmed | ⟨hne, hbare, htrimmed⟩
  · have hreversed : name.reverse ∉ [[], ['.'], ['.', '.']] := by
      simpa [List.reverse_eq_iff, h.ne_nil] using hplain
    left
    simpa using withExtension_of_trimmed hname hfront extension htrimmed hreversed
  have hstem : '/' ∉ '.' :: stem name.reverse := by simpa using not_mem_stem hname
  by_cases hdots : stem name.reverse = ['.']
  · right
    unfold withExtension
    dsimp only
    rw [htrimmed, (takeWhile_name hstem hfront).1, hbare, hdots, if_pos (by decide)]
    simp
  · left
    have hreversed : '.' :: stem name.reverse ∉ [[], ['.'], ['.', '.']] := by simpa [hne] using hdots
    simpa [stem_dot hne] using withExtension_of_trimmed hstem hfront extension htrimmed hreversed

end

end Path

namespace FileSystem

/-- The location that a path leads to, if it has a last name. Nothing needs to stand there. -/
def place? (fs : FileSystem) (path : String) : Option Location :=
  match fs.parent (Path.ofString path) with
  | .ok (dir, some name) => some (dir ++ [name])
  | _ => none

/-- The place of a path, if a file can be put there. -/
def slot? (fs : FileSystem) (path : String) : Option Location :=
  (fs.place? path).filter fun l => !(Path.ofString path).endsInSlash && fs.node? l ≠ some .directory

section

variable {fs fs' : FileSystem} {path : String} {l l' : Location} {n : Node}

theorem lookup_filter_ne (nodes : List (Location × Node)) (l l' : Location) :
    (nodes.filter (·.1 ≠ l)).lookup l' = if l' = l then none else nodes.lookup l' := by
  induction nodes with
  | nil => simp
  | cons entry nodes ih =>
    obtain ⟨k, n⟩ := entry
    by_cases hk : k = l
    · subst hk
      rw [List.filter_cons_of_neg (by simp), ih]
      split
      · rfl
      next hl => rw [List.lookup_cons, beq_false_of_ne hl]
    · rw [List.filter_cons_of_pos (by simpa using hk), List.lookup_cons, List.lookup_cons, ih]
      split
      next hl => rw [if_neg (eq_of_beq hl ▸ hk)]
      · rfl

theorem node?_put (h : l ≠ []) : (fs.put l n).node? l = some n := by
  simp [node?, put, h]

theorem node?_put_of_ne (h : l' ≠ l) : (fs.put l n).node? l' = fs.node? l' := by
  simp only [node?, put, List.lookup_cons, beq_false_of_ne h, lookup_filter_ne, if_neg h]

theorem node?_erase (h : l ≠ []) : (fs.erase l).node? l = none := by
  simp only [node?, erase, lookup_filter_ne, if_neg h, if_true]

theorem node?_erase_of_ne (h : l' ≠ l) : (fs.erase l).node? l' = fs.node? l' := by
  simp only [node?, erase, lookup_filter_ne, if_neg h]

theorem place?_eq_some : fs.place? path = some l ↔
    ∃ dir name, fs.parent (Path.ofString path) = .ok (dir, some name) ∧ l = dir ++ [name] := by
  unfold place?
  split
  next dir name h =>
    rw [h]
    constructor
    · exact fun heq => ⟨dir, name, rfl, (Option.some.inj heq).symm⟩
    · rintro ⟨_, _, heq, rfl⟩
      cases heq
      rfl
  next h => simpa using fun dir name hparent => absurd hparent (h dir name)

theorem ne_nil_of_place? (h : fs.place? path = some l) : l ≠ [] := by
  obtain ⟨dir, name, -, rfl⟩ := place?_eq_some.mp h
  simp

theorem slot?_eq_some : fs.slot? path = some l ↔
    fs.place? path = some l ∧ (Path.ofString path).endsInSlash = false ∧ fs.node? l ≠ some .directory := by
  simp [slot?, Option.filter_eq_some_iff]

/-- Two file systems with the same directories. -/
structure SameDirectories (fs fs' : FileSystem) : Prop where
  here : fs.here = fs'.here
  node? : ∀ l, fs.node? l = some .directory ↔ fs'.node? l = some .directory

theorem SameDirectories.symm (h : SameDirectories fs fs') : SameDirectories fs' fs :=
  ⟨h.here.symm, fun l => (h.node? l).symm⟩

theorem sameDirectories_put (hne : l ≠ []) (h : fs.node? l ≠ some .directory) (content : Bytes) :
    SameDirectories fs (fs.put l (.file content)) where
  here := rfl
  node? l' := by
    by_cases heq : l' = l
    · subst heq
      simp [node?_put hne, h]
    · rw [node?_put_of_ne heq]

section

variable (h : SameDirectories fs fs')
include h

theorem enter_congr {name : String} (henter : fs.enter l name = .ok l') : fs'.enter l name = .ok l' := by
  unfold enter at henter ⊢
  split
  next hname => rwa [if_pos hname] at henter
  next hname =>
    rw [if_neg hname] at henter
    split
    next hname => rwa [if_pos hname] at henter
    next hname =>
      rw [if_neg hname] at henter
      split
      next hname => rwa [if_pos hname] at henter
      next hsize =>
        rw [if_neg hsize] at henter
        split at henter
        next hnode =>
          rw [(h.node? _).mp hnode]
          exact henter
        next => cases henter
        next => cases henter

theorem foldlM_enter_congr {names : List String} (henter : names.foldlM fs.enter l = .ok l') :
    names.foldlM fs'.enter l = .ok l' := by
  induction names generalizing l with
  | nil => exact henter
  | cons name names ih =>
    rw [List.foldlM_cons] at henter ⊢
    cases hfirst : fs.enter l name with
    | error e =>
      rw [hfirst] at henter
      cases henter
    | ok next =>
      rw [hfirst] at henter
      rw [enter_congr h hfirst]
      exact ih henter

end

/-- What it takes for a path to lead to a directory and a name there. -/
theorem parent_ok {p : Path} {dir : Location} {name : String} : fs.parent p = .ok (dir, some name) ↔
    0 < p.size ∧ p.size < 4096 ∧
      p.names.dropLast.foldlM fs.enter (if p.absolute then [] else fs.here) = .ok dir ∧
      p.names.getLast? = some name ∧ name ≠ "." ∧ name ≠ ".." ∧ name.utf8ByteSize ≤ 255 := by
  unfold parent
  by_cases hempty : p.size = 0
  · simp [hempty, bind, Except.bind, throw, throwThe, MonadExceptOf.throw]
  by_cases hlong : 4096 ≤ p.size
  · simp [hempty, hlong, Nat.not_lt_of_le hlong, bind, Except.bind, throw, throwThe, MonadExceptOf.throw]
  cases hdir : p.names.dropLast.foldlM fs.enter (if p.absolute then [] else fs.here) with
  | error e => simp [hempty, hlong, hdir, bind, Except.bind]
  | ok d =>
    have hsize : 0 < p.size ∧ p.size < 4096 := by omega
    simp only [hempty, hlong, hdir, bind, Except.bind, hsize, pure, Except.pure, if_false, true_and, Except.ok.injEq]
    split
    next hlast => simp [hlast]
    next hlast => simp +contextual [hlast, eq_comm]
    next hlast => simp +contextual [hlast, eq_comm]
    next last hdot hdots hlast =>
      rw [hlast]
      by_cases hname : 255 < last.utf8ByteSize
      · rw [if_pos hname]
        refine ⟨nofun, fun ⟨_, heq, _, _, hle⟩ => ?_⟩
        cases heq
        omega
      · rw [if_neg hname]
        refine ⟨fun heq => ?_, fun ⟨hd, heq, _⟩ => ?_⟩
        · cases heq
          exact ⟨rfl, rfl, hdot, hdots, Nat.le_of_not_lt hname⟩
        · cases heq
          rw [hd]

theorem parent_congr (h : SameDirectories fs fs') {p : Path} {dir : Location} {name : String}
    (hparent : fs.parent p = .ok (dir, some name)) : fs'.parent p = .ok (dir, some name) := by
  obtain ⟨hpos, hlong, hdir, hlast⟩ := parent_ok.mp hparent
  rw [h.here] at hdir
  exact parent_ok.mpr ⟨hpos, hlong, foldlM_enter_congr h hdir, hlast⟩

/-- Where a path leads depends on the directories alone. -/
theorem place?_congr (h : SameDirectories fs fs') (path : String) : fs.place? path = fs'.place? path := by
  have hto : ∀ {fs fs' : FileSystem} {l : Location}, SameDirectories fs fs' → fs.place? path = some l →
      fs'.place? path = some l := by
    intro fs fs' l h hplace
    obtain ⟨dir, name, hparent, hl⟩ := place?_eq_some.mp hplace
    exact place?_eq_some.mpr ⟨dir, name, parent_congr h hparent, hl⟩
  exact Option.ext fun l => ⟨hto h, hto h.symm⟩

theorem slot?_congr (h : SameDirectories fs fs') (path : String) : fs.slot? path = fs'.slot? path := by
  refine Option.ext fun l => ?_
  rw [slot?_eq_some, slot?_eq_some, place?_congr h, Ne, h.node?]

theorem slot?_of_parent {dir : Location} {name : String}
    (h : fs.parent (Path.ofString path) = .ok (dir, some name)) :
    fs.slot? path = if (Path.ofString path).endsInSlash ∨ fs.node? (dir ++ [name]) = some .directory then none
      else some (dir ++ [name]) := by
  simp only [slot?, place?, h, Option.filter]
  split <;> simp_all

theorem slot?_eq_none (h : ∀ dir name, fs.parent (Path.ofString path) ≠ .ok (dir, some name)) :
    fs.slot? path = none := by
  unfold slot? place?
  split
  next dir name hparent => exact absurd hparent (h dir name)
  · rfl

/-- A file is written exactly if the path has a slot, and there. -/
theorem write_ok {content : Bytes} : fs.write path content = .ok fs' ↔
    ∃ l, fs.slot? path = some l ∧ fs' = fs.put l (.file content) := by
  unfold write
  simp only [bind, Except.bind]
  cases hparent : fs.parent (Path.ofString path) with
  | error e => simp [slot?_eq_none, hparent]
  | ok way =>
    obtain ⟨dir, none | name⟩ := way
    · simp [slot?_eq_none, hparent, throw, throwThe, MonadExceptOf.throw]
    · simp only [slot?_of_parent hparent]
      by_cases hput : (Path.ofString path).endsInSlash = true ∨ fs.node? (dir ++ [name]) = some .directory
      · simp [hput, throw, throwThe, MonadExceptOf.throw]
      · simpa [hput, pure, Except.pure] using eq_comm

/-- A file is renamed exactly if the other path has a slot, and goes there. -/
theorem rename_ok {source target : String} {d : Location} {content : Bytes} (hslot : fs.slot? source = some d)
    (hnode : fs.node? d = some (.file content)) : fs.rename source target = .ok fs' ↔
    ∃ l, fs.slot? target = some l ∧ fs' = (fs.erase d).put l (.file content) := by
  obtain ⟨hplace, hslash, -⟩ := slot?_eq_some.mp hslot
  obtain ⟨dir, name, hparent, rfl⟩ := place?_eq_some.mp hplace
  unfold rename
  simp only [hparent, bind, Except.bind]
  cases htarget : fs.parent (Path.ofString target) with
  | error e => simp [slot?_eq_none, htarget]
  | ok way =>
    obtain ⟨dir', none | name'⟩ := way
    · simp [slot?_eq_none, htarget, throw, throwThe, MonadExceptOf.throw]
    · simp only [slot?_of_parent htarget, hnode, hslash, Bool.false_eq_true, false_or]
      by_cases hends : (Path.ofString target).endsInSlash = true
      · simp [hends, throw, throwThe, MonadExceptOf.throw]
      · by_cases hdir : fs.node? (dir' ++ [name']) = some .directory
        · simp [hends, hdir, throw, throwThe, MonadExceptOf.throw]
        · simp [hends, hdir, pure, Except.pure, eq_comm]

end

section

variable {fs : FileSystem} {path extension : String} {l d : Location}

/-- The directory that a path leads into depends on what stands in front of the last name. -/
theorem parent_split {front last slashes : List Char} (h : Path.Split path.toList front last slashes)
    {dir : Location} {name : String} (hparent : fs.parent (Path.ofString path) = .ok (dir, some name)) :
    name = String.ofList last ∧ last ∉ [['.'], ['.', '.']] ∧
      ((Path.namesOf front).map String.ofList).foldlM fs.enter (if front.head? == some '/' then [] else fs.here)
        = .ok dir := by
  obtain ⟨-, -, hdir, hlast, hdot, hdots, -⟩ := parent_ok.mp hparent
  rw [Path.names_ofString, h.namesOf_eq, List.map_append, List.map_singleton] at hdir hlast
  rw [List.getLast?_concat] at hlast
  obtain rfl : String.ofList last = name := Option.some.inj hlast
  rw [List.dropLast_concat] at hdir
  refine ⟨rfl, fun hmem => ?_, ?_⟩
  · simp only [List.mem_cons, List.not_mem_nil, or_false] at hmem
    obtain rfl | rfl := hmem
    · exact hdot rfl
    · exact hdots rfl
  · rw [← h.absolute_eq]
    exact hdir

/-- A path with another extension leads into the same directory, to what stands in the name before its last dot, and
that extension. -/
theorem place?_withExtension (hextension : '/' ∉ extension.toList) (hplace : fs.place? path = some l)
    (hdraft : fs.place? (Path.withExtension path extension) = some d) :
    ∃ dir name bare, l = dir ++ [name] ∧ d = dir ++ [bare ++ "." ++ extension] ∧
      (name = bare ∨ ∃ old, '.' ∉ old.toList ∧ name = bare ++ "." ++ old) := by
  obtain ⟨dir, name, hparent, rfl⟩ := place?_eq_some.mp hplace
  obtain ⟨dir', name', hparent', rfl⟩ := place?_eq_some.mp hdraft
  have hne : Path.namesOf path.toList ≠ [] := fun hnil => by
    simpa [Path.names_ofString, hnil] using (parent_ok.mp hparent).2.2.2.1
  obtain ⟨front, last, slashes, hsplit⟩ := Path.Split.exists_of_namesOf hne
  obtain ⟨rfl, hplain, hdir⟩ := parent_split hsplit hparent
  have hreversed : '/' ∉ last.reverse := by simpa using hsplit.not_mem
  rcases Path.toList_withExtension hsplit hplain extension with htext | htext
  · have hmem : '/' ∉ (Path.stem last.reverse).reverse ++ '.' :: extension.toList := by
      simpa [hextension] using Path.not_mem_stem hreversed
    have hsplit' : Path.Split (Path.withExtension path extension).toList front
        ((Path.stem last.reverse).reverse ++ '.' :: extension.toList) [] :=
      ⟨by rw [htext, List.append_nil], hsplit.front, by simp, hmem, nofun⟩
    obtain ⟨rfl, -, hdir'⟩ := parent_split hsplit' hparent'
    obtain rfl : dir = dir' := Except.ok.inj (hdir.symm.trans hdir')
    refine ⟨dir, _, String.ofList (Path.stem last.reverse).reverse, rfl, by simp [← String.toList_inj], ?_⟩
    obtain hstem | ⟨old, hold, heq⟩ := Path.eq_stem hreversed
    · exact .inl (by rw [hstem, List.reverse_reverse])
    · refine .inr ⟨String.ofList old.reverse, by simpa using hold, ?_⟩
      simpa [← String.toList_inj] using congrArg List.reverse heq
  · have hsplit' : Path.Split (Path.withExtension path extension).toList front ['.', '.'] [] :=
      ⟨htext, hsplit.front, List.cons_ne_nil _ _, by decide, nofun⟩
    exact absurd (List.mem_cons_of_mem _ List.mem_cons_self) (parent_split hsplit' hparent').2.1

end

end FileSystem
end Promela

import LogOrigin.Proofs.Search.Discovery
import LogOrigin.Proofs.Search.Scan

-- A record that has been located is located at the same place again, by its own location, for as
-- long as the file is there.

namespace LogOrigin

namespace FilePath

variable {p dir : FilePath}

theorem isAbsolute_join (h : dir.isAbsolute) : (dir.join p).isAbsolute := by
  obtain ⟨t⟩ := dir
  unfold join
  split
  case isTrue ha =>
    have ht : t ≠ [] := by
      rintro rfl
      cases h
    simpa [ht] using ha
  case isFalse   =>
    cases t
    case nil  => cases h
    case cons => split <;> exact h

end FilePath

namespace Discovery

variable {κ : Type} {policy : IgnorePolicy κ} {fs : Files} {skipDirs : List Text}

mutual

-- Everything inside an absolute directory has an absolute path.
theorem walk_absolute {k : κ} {names : List Text} {path : FilePath}
    (h : path.isAbsolute) :
    (e : Entry) → ∀ f ∈ walk policy skipDirs k names path e, f.path.isAbsolute
  | .file b, f, hf      => by
    rw [walk] at hf
    split at hf
    case isTrue  => cases hf
    case isFalse => exact List.mem_singleton.mp hf ▸ h
  | .dir entries, f, hf => by
    rw [walk] at hf
    exact walkAll_absolute h entries f hf

theorem walkAll_absolute {k : κ} {names : List Text} {path : FilePath}
    (h : path.isAbsolute) :
    (l : List (Text × Entry)) → ∀ f ∈ walkAll policy skipDirs k names path l, f.path.isAbsolute
  | [], _, hf             => by
    rw [walkAll] at hf
    cases hf
  | (name, e) :: l, f, hf => by
    rw [walkAll] at hf
    rcases List.mem_append.mp hf with hf | hf
    case inl =>
      split at hf
      case isTrue  => cases hf
      case isFalse => exact walk_absolute (FilePath.isAbsolute_join h) e f hf
    case inr => exact walkAll_absolute h l f hf

end

theorem ofRoot_absolute {root : FilePath} {s : SearchSettings} {d : Discovery}
    (h : root.isAbsolute) (hd : ofRoot fs root s = .ok d) : ∀ f ∈ d.files, f.isAbsolute := by
  intro f hf
  obtain ⟨_, _, x, hx, _, rfl⟩ := mem_of_ofPolicy hd hf
  exact walk_absolute h _ x hx

end Discovery

namespace Hint

variable {fs : Files} {root p q : FilePath}

theorem mem_dropRepeats {l : List FilePath} (h : p ∈ dropRepeats l) : p ∈ l := by
  have go {last : FilePath} {l : List FilePath} (h : p ∈ dropRepeats.go last l) : p ∈ l := by
    induction l generalizing last
    case nil         => cases h
    case cons q l hi =>
      unfold dropRepeats.go at h
      split at h
      case isTrue  => exact List.mem_cons_of_mem _ (hi h)
      case isFalse =>
        rcases List.mem_cons.mp h with rfl | h
        case inl => exact List.mem_cons_self ..
        case inr => exact List.mem_cons_of_mem _ (hi h)
  cases l
  case nil      => cases h
  case cons q l =>
    rcases List.mem_cons.mp h with rfl | h
    case inl => exact List.mem_cons_self ..
    case inr => exact List.mem_cons_of_mem _ (go h)

-- However a path is written, only absolute paths are candidates in an absolute directory.
theorem candidates_absolute (h : root.isAbsolute) (hp : p ∈ candidates root q) : p.isAbsolute := by
  have hp := mem_dropRepeats hp
  simp only [List.mem_append] at hp
  rcases hp with (hp | hp) | hp
  case inl.inl =>
    split at hp
    case isTrue ha => exact List.mem_singleton.mp hp ▸ ha
    case isFalse   => cases hp
  case inl.inr => exact List.mem_singleton.mp hp ▸ FilePath.isAbsolute_join h
  case inr     =>
    split at hp
    case h_1 => exact List.mem_singleton.mp hp ▸ FilePath.isAbsolute_join h
    case h_2 => cases hp

theorem translate?_absolute (h : root.isAbsolute) (hp : translate? fs root q = some p) :
    p.isAbsolute :=
  candidates_absolute h (List.mem_of_find?_eq_some hp)

-- An absolute path of a file means itself, whatever else it could mean.
theorem translate?_self (root : FilePath) (h : p.isAbsolute) (hf : fs.isFile p) :
    translate? fs root p = some p := by
  simp [translate?, candidates, h, dropRepeats, hf]

end Hint

namespace Resolver

variable {r r' : Resolver} {fs : Files} {record : Record} {cancelled : Bool} {o : Origin}

-- All files of the repository have absolute paths.
structure Rooted (r : Resolver) : Prop where
  root  : r.root.isAbsolute
  files : ∀ files, r.files = some files → ∀ f ∈ files, f.isAbsolute

namespace Rooted

theorem new {root : FilePath} (h : root.isAbsolute) (s : SearchSettings) :
    Rooted (.new root s) where
  root  := h
  files := nofun

theorem invalidate (h : Rooted r) : Rooted r.invalidate where
  root  := h.root
  files := nofun

theorem sources (h : Rooted r) {files : List FilePath} (hf : (r.sources fs).1 = .ok files) :
    ∀ f ∈ files, f.isAbsolute := by
  unfold Resolver.sources at hf
  split at hf
  case h_1 l hl =>
    cases hf
    exact h.files files hl
  case h_2 =>
    split at hf
    case h_1 hd => exact Except.ok.inj hf ▸ Discovery.ofRoot_absolute h.root hd
    case h_2    => cases hf

theorem continues (h : Rooted r) (hc : Continues fs r r') : Rooted r' where
  root  := hc.root ▸ h.root
  files := by
    intro files hf
    have hs : (r'.sources fs).1 = .ok files := by simp [Resolver.sources, hf]
    exact h.sources (hc.sources ▸ hs)

-- Every stage finds absolute paths only.
theorem found (h : Rooted r) (ho : (r.resolve fs record cancelled).1 = .ok (.found o)) :
    o.file.isAbsolute := by
  rcases resolve_found ho with ho | ho | ho | ⟨files, file, hf, hm, rfl⟩
  case inl         =>
    obtain ⟨_, _, _, hf, rfl⟩ := ofCache?_found ho
    exact Hint.translate?_absolute h.root hf
  case inr.inl     =>
    obtain ⟨_, _, _, hf, rfl⟩ := ofHints?_found ho
    exact Hint.translate?_absolute h.root hf
  case inr.inr.inl =>
    obtain ⟨files, _, c, hf, _, ho, hc⟩ := firstMatch_found trim_needle ho
    rw [ho]
    exact h.sources hf c.file (List.mem_of_getElem? hc.file)
  case inr.inr.inr => exact h.sources hf file hm

end Rooted

theorem locate_cached {l : Location} (hl : record.location = some l)
    (ht : Hint.translate? fs r.root l.file = some l.file) (cancelled : Bool) :
    r.locate fs record cancelled = (.ok (.found (.ofLocation .cache l)), record, r) := by
  have ho : ofCache? fs r.root record = some (.ofLocation .cache l) := by
    simp [ofCache?, hl, ht]
  have hk : keep record (.ok (.found (.ofLocation .cache l))) = record := by
    cases record
    simp_all [keep, Origin.location, Origin.ofLocation]
  simp [locate, resolve, stages, ho, resolutionOf, hk]

-- Nothing but the root and the location of the record decides.
theorem locate_known {l : Location} (hl : record.location = some l) (ha : l.file.isAbsolute)
    (hf : fs.isFile l.file) (r : Resolver) (cancelled : Bool) :
    r.locate fs record cancelled = (.ok (.found (.ofLocation .cache l)), record, r) :=
  locate_cached hl (Hint.translate?_self r.root ha hf) cancelled

-- A record together with the resolver that is asked for its origin.
structure Inquiry where
  resolver : Resolver
  record   : Record

-- What happens to the two. The files are those of the moment, and so is the rest of the record, all
-- but its location.
inductive Event where
  | locate (fs : Files) (cancelled : Bool)
  | other (fs : Files) (record : Record) (cancelled : Bool)
  | search (fs : Files) (text : Text) (cancelled : Bool)
  | sources (fs : Files)
  | invalidate
  | revise (record : Record)

-- The file is there whenever the record is located.
def Event.Keeps (file : FilePath) : Event → Prop
  | .locate fs _ => fs.isFile file
  | _            => True

namespace Inquiry

def after (i : Inquiry) : Event → Inquiry
  | .locate fs cancelled       =>
    let (_, record, resolver) := i.resolver.locate fs i.record cancelled
    ⟨resolver, record⟩
  | .other fs record cancelled => { i with resolver := (i.resolver.resolve fs record cancelled).2 }
  | .search fs text cancelled  => { i with resolver := (i.resolver.search fs text cancelled).2 }
  | .sources fs                => { i with resolver := (i.resolver.sources fs).2 }
  | .invalidate                => { i with resolver := i.resolver.invalidate }
  | .revise record             => { i with record := { record with location := i.record.location } }

def run (i : Inquiry) (events : List Event) : Inquiry :=
  events.foldl after i

variable {i : Inquiry} {l : Location} {events : List Event}

theorem rooted_after (h : i.resolver.Rooted) (e : Event) : (i.after e).resolver.Rooted := by
  cases e
  case locate fs c       => exact h.continues (continues_resolve _ fs _ c)
  case other fs record c => exact h.continues (continues_resolve _ fs record c)
  case search fs text c  => exact h.continues (continues_search _ fs text c)
  case sources fs        => exact h.continues (continues_sources _ fs)
  case invalidate        => exact h.invalidate
  case revise            => exact h

theorem rooted_run (h : i.resolver.Rooted) (events : List Event) :
    (i.run events).resolver.Rooted := by
  induction events generalizing i
  case nil         => exact h
  case cons e _ hi => exact hi (rooted_after h e)

theorem location_after {e : Event} (hl : i.record.location = some l) (ha : l.file.isAbsolute)
    (hk : e.Keeps l.file) : (i.after e).record.location = some l := by
  cases e
  case locate fs c =>
    rw [after, locate_known hl ha hk]
    exact hl
  all_goals exact hl

theorem location_run (hl : i.record.location = some l) (ha : l.file.isAbsolute)
    (hk : ∀ e ∈ events, e.Keeps l.file) : (i.run events).record.location = some l := by
  induction events generalizing i
  case nil              => exact hl
  case cons e events hi =>
    have ⟨he, hk⟩ := List.forall_mem_cons.mp hk
    exact hi (location_after hl ha he) hk

end Inquiry

-- The resolvers of a repository, whatever they have been used for.
def Reached (root : FilePath) (settings : SearchSettings) (r : Resolver) : Prop :=
  ∃ record events, (Inquiry.run ⟨.new root settings, record⟩ events).resolver = r

theorem Rooted.of_reached {root : FilePath} {settings : SearchSettings} (hr : root.isAbsolute)
    (h : Reached root settings r) : Rooted r := by
  obtain ⟨_, events, rfl⟩ := h
  exact Inquiry.rooted_run (.new hr settings) events

-- The second answer is the cached location, whatever has happened to the resolver, to other files
-- and to the rest of the record since the first one. It changes neither the record nor the resolver.
theorem locate_again {root : FilePath} {settings : SearchSettings} {later : List Event}
    {fs' : Files} (hr : root.isAbsolute) (h : Reached root settings r)
    (ho : (r.locate fs record cancelled).1 = .ok (.found o))
    (hk : ∀ e ∈ later, e.Keeps o.file) (hf : fs'.isFile o.file) (cancelled' : Bool) :
    let i := Inquiry.run ⟨r, record⟩ (.locate fs cancelled :: later)
    i.record.location = some o.location ∧
    i.resolver.locate fs' i.record cancelled' =
      (.ok (.found (.ofLocation .cache o.location)), i.record, i.resolver) := by
  intro i
  have ha : o.file.isAbsolute := (Rooted.of_reached hr h).found ho
  let found : Inquiry := .after ⟨r, record⟩ (.locate fs cancelled)
  have hs : found.record.location = some o.location := by
    change (keep record (r.locate fs record cancelled).1).location = some o.location
    rw [ho]
    rfl
  have hl : i.record.location = some o.location := Inquiry.location_run (i := found) hs ha hk
  exact ⟨hl, locate_known hl ha hf i.resolver cancelled'⟩

-- A relative path in the message is a file of the repository. Later that file is a different one,
-- the message names another file, and the last search is cancelled.
theorem locate_again_changed :
    let root : FilePath := ⟨"/r".toList⟩
    let src (text : String) : Text × Entry :=
      ("src".toList, .dir [("a.rs".toList, .file text.toUTF8)])
    let b : Text × Entry := ("b.rs".toList, .file "".toUTF8)
    let files (l : List (Text × Entry)) : Files := ⟨.dir [(['r'], .dir l)], []⟩
    let record (message : String) : Record :=
      ⟨[], .info, message.toList, none, .single Record.rootName [], [], none, none, none⟩
    let l : Location := ⟨⟨"/r/src/a.rs".toList⟩, 6⟩
    let later : List Resolver.Event :=
      [.invalidate, .revise (record "at b.rs:1"), .locate (files [src "b"]) true,
        .sources (files [b])]
    let i := Inquiry.run ⟨.new root Settings.default.search, record "at src/a.rs:7"⟩
      (.locate (files [src "a"]) false :: later)
    i.record.message = "at b.rs:1".toList ∧ i.resolver.files = some [⟨"/r/b.rs".toList⟩] ∧
    i.record.location = some l ∧ i.resolver.locate (files [b, src "c"]) i.record true =
      (.ok (.found (.ofLocation .cache l)), i.record, i.resolver) := by
  intro root src b files record l later i
  have ho : ((Resolver.new root Settings.default.search).locate (files [src "a"])
      (record "at src/a.rs:7") false).1 = .ok (.found (.ofLocation .hint l)) := by
    rfl
  have hk : ∀ e ∈ later, e.Keeps l.file := by
    simp only [later, List.forall_mem_cons, List.not_mem_nil, false_implies, implies_true,
      Event.Keeps, true_and, and_true]
    decide +kernel
  have hf : (files [b, src "c"]).isFile l.file := by decide +kernel
  refine ⟨rfl, ?_, locate_again (by decide) ⟨record "", [], rfl⟩ ho hk hf true⟩
  decide +kernel

end Resolver

end LogOrigin

import StyleFeed.Tree.Resolve

/-!
Changes of a tree. `put?`, `remove` and `graft?` work on routes and keep a tree a tree; the others take
paths, refuse what a file system refuses, and say why.
-/

namespace StyleFeed.Tree

/-- Puts an entry into a directory, in place of a file or a link. -/
def put? (t : Tree) (r : Route) (e : Entry) : Option Tree :=
  if h : r ≠ [] ∧ t.lookup? r.dropLast = some .directory ∧ t.lookup? r ≠ some .directory then
    some
      { t with
        entries := t.entries.filter (·.1 ≠ r) ++ [(r, e)]
        distinct := by
          rw [List.map_append, List.nodup_append]
          refine ⟨t.distinct.sublist (List.filter_sublist.map _), by simp, ?_⟩
          intro a ha b hb
          obtain ⟨x, hx, rfl⟩ := List.mem_map.mp ha
          simp only [List.map_cons, List.map_nil, List.mem_singleton] at hb
          subst hb
          simpa using (List.mem_filter.mp hx).2
        rooted := by
          obtain ⟨nonempty, parent, free⟩ := h
          have keep {k} (hk : k = [] ∨ (k, Entry.directory) ∈ t.entries) :
              k = [] ∨ (k, Entry.directory) ∈ t.entries.filter (·.1 ≠ r) ++ [(r, e)] := by
            rcases hk with hk | hk
            · exact .inl hk
            · refine .inr (List.mem_append.mpr (.inl (List.mem_filter.mpr ⟨hk, ?_⟩)))
              simp only [ne_eq, decide_eq_true_eq]
              rintro rfl
              exact free (lookup?_eq_some_iff.mpr (.inr hk))
          intro x hx
          rcases List.mem_append.mp hx with hx | hx
          · have := t.rooted x (List.mem_filter.mp hx).1
            exact ⟨this.1, keep this.2⟩
          · simp only [List.mem_singleton] at hx
            subst hx
            refine ⟨nonempty, keep ?_⟩
            rcases lookup?_eq_some_iff.mp parent with ⟨h, -⟩ | h
            · exact .inl h
            · exact .inr h }
  else none

/-- Takes away an entry and all below it. -/
def remove (t : Tree) (r : Route) : Tree :=
  { t with
    entries := t.entries.filter fun x => !r.isPrefixOf x.1
    distinct := t.distinct.sublist (List.filter_sublist.map _)
    rooted := by
      intro x hx
      obtain ⟨hm, hr⟩ := List.mem_filter.mp hx
      obtain ⟨nonempty, parent⟩ := t.rooted x hm
      refine ⟨nonempty, parent.imp id fun h => List.mem_filter.mpr ⟨h, ?_⟩⟩
      simp only [Bool.not_eq_true', Bool.eq_false_iff, ne_eq, List.isPrefixOf_iff_prefix] at hr ⊢
      exact fun hp => hr (hp.trans (List.dropLast_prefix _)) }

/-- Nothing lies below the route. -/
def IsBare (t : Tree) (r : Route) : Prop :=
  ∀ x ∈ t.entries, r.isPrefixOf x.1 → x.1 = r

instance (t : Tree) (r : Route) : Decidable (t.IsBare r) :=
  inferInstanceAs (Decidable (∀ x ∈ t.entries, r.isPrefixOf x.1 → x.1 = r))

/-- The entries at and below `src`, as they stand when `src` has become `dest`. -/
def grafted (t : Tree) (src dest : Route) : List (Route × Entry) :=
  (t.entries.filter fun x => src.isPrefixOf x.1).map fun x => (dest ++ x.1.drop src.length, x.2)

theorem mem_grafted {t : Tree} {src dest r : Route} {e : Entry} :
    (r, e) ∈ t.grafted src dest ↔ ∃ below, r = dest ++ below ∧ (src ++ below, e) ∈ t.entries := by
  simp only [grafted, List.mem_map, List.mem_filter, List.isPrefixOf_iff_prefix, Prod.mk.injEq]
  constructor
  · rintro ⟨⟨k, v⟩, ⟨mem, below, rfl⟩, rfl, rfl⟩
    exact ⟨below, by rw [List.drop_left], mem⟩
  · rintro ⟨below, rfl, mem⟩
    exact ⟨_, ⟨mem, below, rfl⟩, by rw [List.drop_left], rfl⟩

theorem nodup_grafted (t : Tree) (src dest : Route) : ((t.grafted src dest).map Prod.fst).Nodup := by
  have distinct := (List.pairwise_map.mp t.distinct).filter fun x => src.isPrefixOf x.1
  rw [grafted, List.map_map, List.Nodup, List.pairwise_map]
  refine distinct.imp_of_mem ?_
  intro x y hx hy apart same
  obtain ⟨a, ha⟩ := List.isPrefixOf_iff_prefix.mp (List.mem_filter.mp hx).2
  obtain ⟨b, hb⟩ := List.isPrefixOf_iff_prefix.mp (List.mem_filter.mp hy).2
  have below : x.1.drop src.length = y.1.drop src.length := List.append_cancel_left same
  rw [← ha, ← hb, List.drop_left, List.drop_left] at below
  exact apart (by rw [← ha, ← hb, below])

/-- Makes what is at `src` stand at `dest`, where there is nothing that holds anything. -/
def graft? (t : Tree) (src dest : Route) : Option Tree :=
  if h : src ≠ [] ∧ dest ≠ [] ∧ ¬ src <+: dest ∧ t.lookup? dest.dropLast = some .directory ∧
      t.IsBare dest then
    some
      { t with
        entries := t.entries.filter (fun x => !src.isPrefixOf x.1 && x.1 ≠ dest) ++ t.grafted src dest
        distinct := by
          obtain ⟨-, -, -, -, bare⟩ := h
          rw [List.map_append, List.nodup_append]
          refine ⟨t.distinct.sublist (List.filter_sublist.map _), nodup_grafted t src dest, ?_⟩
          intro a ha b hb
          obtain ⟨x, hx, rfl⟩ := List.mem_map.mp ha
          obtain ⟨⟨k, e⟩, hy, rfl⟩ := List.mem_map.mp hb
          obtain ⟨below, rfl, -⟩ := mem_grafted.mp hy
          obtain ⟨hm, hp⟩ := List.mem_filter.mp hx
          simp only [Bool.and_eq_true, decide_eq_true_eq] at hp
          intro he
          exact hp.2 (bare x hm (by simp [he]))
        rooted := by
          obtain ⟨srcBelow, destBelow, apart, parent, bare⟩ := h
          have keep {k} (hk : k = [] ∨ (k, Entry.directory) ∈ t.entries) (hs : ¬ src <+: k)
              (hd : k ≠ dest) : k = [] ∨ (k, Entry.directory) ∈
                t.entries.filter (fun x => !src.isPrefixOf x.1 && x.1 ≠ dest) ++ t.grafted src dest := by
            rcases hk with hk | hk
            · exact .inl hk
            · refine .inr (List.mem_append.mpr (.inl (List.mem_filter.mpr ⟨hk, ?_⟩)))
              simpa [hd, Bool.eq_false_iff, List.isPrefixOf_iff_prefix] using hs
          intro x hx
          rcases List.mem_append.mp hx with hx | hx
          · obtain ⟨hm, hp⟩ := List.mem_filter.mp hx
            simp only [Bool.and_eq_true, Bool.not_eq_true', decide_eq_true_eq, Bool.eq_false_iff, ne_eq,
              List.isPrefixOf_iff_prefix] at hp
            obtain ⟨nonempty, inside⟩ := t.rooted x hm
            refine ⟨nonempty, keep inside (fun h => hp.1 (h.trans (List.dropLast_prefix _))) fun h => ?_⟩
            exact hp.2 (bare x hm (by simpa [← h] using List.dropLast_prefix x.1))
          · obtain ⟨below, hr, hm⟩ := mem_grafted.mp (show (x.1, x.2) ∈ _ from hx)
            rw [hr]
            refine ⟨by simp [destBelow], ?_⟩
            by_cases hb : below = []
            · subst hb
              rw [List.append_nil]
              refine keep ?_ (fun h => apart (h.trans (List.dropLast_prefix _))) fun h => ?_
              · rcases lookup?_eq_some_iff.mp parent with ⟨h, -⟩ | h
                · exact .inl h
                · exact .inr h
              · have := congrArg List.length h
                rw [List.length_dropLast] at this
                have := List.length_pos_iff.mpr destBelow
                omega
            · refine .inr (List.mem_append.mpr (.inr (mem_grafted.mpr ⟨below.dropLast, ?_, ?_⟩)))
              · exact List.dropLast_append_of_ne_nil hb
              · have inside := (t.rooted _ hm).2
                simp only [List.dropLast_append_of_ne_nil hb] at inside
                exact inside.resolve_left (by simp [srcBelow]) }
  else none

/-! Paths -/

/-- The last segment of a path that is not empty, and the segments before it. -/
def lastSegment (p : Path) : Option (List Bytes × Bytes) :=
  match p.segments.reverse.dropWhile (·.isEmpty) with
  | [] => none
  | last :: before => some (before.reverse, last)

/-- The directory that a path names an entry of, and the name; a link at the end is not followed. -/
def locateEntry (t : Tree) (p : Path) : Except IoFault (Route × Option FileName) :=
  if hasNul p then .error .nulInName
  else if p.bytes = [] then .error .noEntry
  else match lastSegment p with
    | none => .ok ([], none)
    | some (before, last) =>
      match t.locateSegments p before with
      | .error m => .error m.fault
      | .ok r =>
        match t.lookup? r with
        | some .directory => .ok (r, FileName.ofBytes? last)
        | some _ => .error .notDirectory
        | none => .error .noEntry

/-- A slash at the end of a path asks for a directory. -/
def asksDirectory (p : Path) : Bool :=
  p.bytes.getLast? == some slash

/-- Makes one directory where there is nothing. -/
def makeDirectory (t : Tree) (p : Path) : Except IoFault Tree := do
  match ← t.locateEntry p with
  | (_, none) => .error .alreadyThere
  | (r, some n) =>
    match t.lookup? (r ++ [n]), t.put? (r ++ [n]) .directory with
    | none, some t => .ok t
    | _, _ => .error .alreadyThere

/-- Makes the first of the paths a directory, after those it lies in, which follow it. -/
def makeAll (t : Tree) : List Path → Except IoFault Tree
  | [] => .error .noEntry
  | p :: outer =>
    if p.bytes = [] then .ok t
    else
      match t.makeDirectory p with
      | .ok t => .ok t
      | .error fault =>
        if fault.kind = .notFound then do
          let t ← t.makeAll outer
          match t.makeDirectory p with
          | .ok t => .ok t
          | .error fault => if t.isDirectory p then .ok t else .error fault
        else if t.isDirectory p then .ok t
        else .error fault

/-- Makes a directory and those it lies in; one that is there already stays. -/
def makeDirectories (t : Tree) (p : Path) : Except IoFault Tree :=
  t.makeAll p.ancestors

/-- Writes a file, over what it held, in directories that are made for it. -/
def write (t : Tree) (p : Path) (content : Bytes) : Except IoFault Tree := do
  let t ← match p.ancestors with
    | _ :: outer@(_ :: _) => t.makeAll outer
    | _ => .ok t
  match t.locate p with
  | .error m => .error m.fault
  | .ok r =>
    match t.put? r (.file content) with
    | some t => .ok t
    | none => .error .directory

/-- Takes away a file or a link. -/
def removeFile (t : Tree) (p : Path) : Except IoFault Tree := do
  match ← t.locateEntry p with
  | (_, none) => .error .directory
  | (r, some n) =>
    match t.lookup? (r ++ [n]) with
    | none => .error .noEntry
    | some .directory => .error .directory
    | some _ => if asksDirectory p then .error .notDirectory else .ok (t.remove (r ++ [n]))

/-- Takes away a directory and all in it; of a link only the link. -/
def removeDirectory (t : Tree) (p : Path) : Except IoFault Tree := do
  match ← t.locateEntry p with
  | (_, none) => .error .directory
  | (r, some n) =>
    match t.lookup? (r ++ [n]) with
    | none => .error .noEntry
    | some (.file _) => .error .notDirectory
    | some _ => .ok (t.remove (r ++ [n]))

/-- Gives an entry another place. It takes the place of a file by a file or a link, and of an empty
directory by a directory. -/
def move (t : Tree) (src dest : Path) : Except IoFault Tree := do
  match ← t.locateEntry src, ← t.locateEntry dest with
  | (r, some n), (s, some m) =>
    let old := r ++ [n]
    let new := s ++ [m]
    match t.lookup? old, t.lookup? new with
    | none, _ => .error .noEntry
    | some .directory, some (.file _) | some .directory, some (.link _) => .error .notDirectory
    | some (.file _), some .directory | some (.link _), some .directory => .error .directory
    | some e, _ =>
      if e ≠ .directory ∧ (asksDirectory src ∨ asksDirectory dest) then .error .notDirectory
      else if old = new then .ok t
      else
        match t.graft? old new with
        | some t => .ok t
        | none => .error (.ofKind .other)
  | _, _ => .error (.ofKind .other)

/-- Makes a link where there is nothing. -/
def link (t : Tree) (p target : Path) : Except IoFault Tree := do
  if hasNul target then .error .nulInName
  else if target.bytes = [] then .error .noEntry
  else match ← t.locateEntry p with
    | (_, none) => .error .alreadyThere
    | (r, some n) =>
      match t.lookup? (r ++ [n]), t.put? (r ++ [n]) (.link target) with
      | none, some t => if asksDirectory p then .error .noEntry else .ok t
      | _, _ => .error .alreadyThere

end StyleFeed.Tree

import StyleFeed.Proofs.Numerals
import StyleFeed.Toml.Document

/-!
The integers that a TOML document gives its keys have 64 bits (`fits_of_parse`). It is so where a word is read, and
nothing that a line does to the entries before it makes another integer.
-/

namespace StyleFeed.Toml

theorem Scalar.fits_of_ofWord? {word : List Char} {n : Int} (h : ofWord? word = some (.integer n)) : Fits n := by
  have read : integer? word = some n := by
    unfold ofWord? at h
    split at h
    · cases h
    · split at h
      · cases h
      · split at h
        · rename_i read
          cases h
          exact read
        · split at h
          · cases h
          · split at h <;> cases h
  have small := (Option.filter_eq_some_iff.mp read).2
  rw [Bool.and_eq_true, decide_eq_true_eq, decide_eq_true_eq] at small
  exact small

/-- If this is an integer, it has 64 bits. -/
def Item.Fits (x : Item) : Prop := ∀ n, x = .scalar (.integer n) → Scalar.Fits n

theorem Item.fits_table (origin : Origin) (es : Entries) : (table origin es).Fits := nofun

theorem Item.fits_tables (elements : List Entries) : (tables elements).Fits := nofun

/-! ## Entries -/

namespace Entries

/-- The integers under the keys have 64 bits. -/
def Fit (es : Entries) : Prop := ∀ e ∈ es, e.2.Fits

/-- A change that makes no other integer. -/
def Keeps (change : Entries → Option Entries) : Prop := ∀ es es', es.Fit → change es = some es' → es'.Fit

variable {es : Entries} {key : String} {x : Item}

theorem Fit.concat (fit : es.Fit) (new : x.Fits) : Fit (es ++ [(key, x)]) := by
  intro e mem
  rcases List.mem_append.mp mem with mem | mem
  · exact fit e mem
  · rw [List.mem_singleton.mp mem]
    exact new

theorem Fit.replace (fit : es.Fit) (new : x.Fits) : (es.replace key x).Fit := by
  intro e mem
  obtain ⟨e', mem', same⟩ := List.mem_map.mp mem
  split at same
  · rw [← same]
    exact new
  · rw [← same]
    exact fit e' mem'

theorem Fit.of_lookup (fit : es.Fit) (found : es.lookup key = some x) : x.Fits := by
  obtain ⟨before, after, rfl, -⟩ := List.lookup_eq_some_iff.mp found
  exact fit (key, x) (by simp)

/-- On its way down a change makes tables only. -/
theorem keeps_update {made : Origin} {change : Origin → Entries → Option Entries}
    (keeps : ∀ origin, Keeps (change origin)) (path : List String) (origin : Origin) :
    Keeps (update made change path origin) := by
  intro es es' fit h
  cases path with
  | nil => exact keeps origin es es' fit h
  | cons key path =>
    rw [update] at h
    split at h
    · obtain ⟨inner, -, h⟩ := Option.bind_eq_some_iff.mp h
      cases h
      exact fit.concat (Item.fits_table made inner)
    · split at h
      · cases h
      · obtain ⟨inner, -, h⟩ := Option.bind_eq_some_iff.mp h
        cases h
        exact fit.replace (Item.fits_table _ inner)
    · obtain ⟨last, -, h⟩ := Option.bind_eq_some_iff.mp h
      obtain ⟨inner, -, h⟩ := Option.bind_eq_some_iff.mp h
      cases h
      exact fit.replace (Item.fits_tables _)
    · cases h

theorem keeps_add (path : List String) (key : String) (new : x.Fits) (origin : Origin) :
    Keeps (add path key x origin) := by
  apply keeps_update
  intro reached es es' fit h
  dsimp only at h
  split at h
  · cases h
  · split at h
    · cases h
    · cases h
      exact fit.concat new

theorem keeps_addBelow (header path : List String) (key : String) (new : x.Fits) :
    Keeps (addBelow header path key x) := keeps_update (keeps_add path key new) header .header

theorem keeps_openTable (path : List String) (key : String) : Keeps (openTable path key) := by
  apply keeps_update
  intro _ es es' fit h
  dsimp only at h
  split at h
  · cases h
    exact fit.concat (Item.fits_table _ _)
  · cases h
    exact fit.replace (Item.fits_table _ _)
  · cases h

theorem keeps_openElement (path : List String) (key : String) : Keeps (openElement path key) := by
  apply keeps_update
  intro _ es es' fit h
  dsimp only at h
  split at h
  · cases h
    exact fit.concat (Item.fits_tables _)
  · cases h
    exact fit.replace (Item.fits_tables _)
  · cases h

end Entries

/-! ## Lines -/

section
variable {cs : List Char}

theorem fits_of_readScalar {x : Read cs Item} (h : readScalar cs = some x) : x.value.Fits := by
  unfold readScalar at h
  split at h
  · cases h
  · split at h
    · obtain ⟨s, read, rfl⟩ := Option.map_eq_some_iff.mp h
      rintro n ⟨⟩
      exact Scalar.fits_of_ofWord? read
    · cases h

theorem fits_of_readValue {depth : Nat} {x : Read cs Item} (h : readValue depth cs = some x) : x.value.Fits := by
  unfold readValue at h
  split at h
  · cases h
  · split at h
    · split at h <;> cases h
      exact nofun
    · split at h
      · split at h
        · cases h
        · split at h <;> cases h
          exact nofun
      · split at h
        · split at h
          · cases h
          · split at h
            · obtain ⟨es, -, rfl⟩ := Option.map_eq_some_iff.mp h
              exact Item.fits_table _ es
            · cases h
        · exact fits_of_readScalar h

/-- If this gives a key an integer, it has 64 bits. -/
def Line.Fits : Line → Prop
  | entry _ x => x.Fits
  | table _ | element _ => True

theorem fits_of_readLine {line : Read cs Line} (h : readLine cs = some line) : line.value.Fits := by
  rw [readLine.eq_def] at h
  split at h
  case h_1 | h_2 =>
    split at h
    · cases h
    · split at h
      · split at h <;> cases h
        trivial
      · cases h
  case h_3 =>
    split at h
    · cases h
    · split at h
      · split at h
        · cases h
        · rename_i read
          split at h <;> cases h
          exact fits_of_readValue read
      · cases h

namespace Reading

theorem fit_take {d d' : Reading} {line : Line} (fit : d.entries.Fit) (new : line.Fits) (h : d.take line = some d') :
    d'.entries.Fit := by
  cases line with
  | entry key x =>
    obtain ⟨es, added, h⟩ := Option.bind_eq_some_iff.mp h
    cases h
    exact Entries.keeps_addBelow _ _ _ new _ _ fit added
  | table key =>
    obtain ⟨es, opened, h⟩ := Option.bind_eq_some_iff.mp h
    cases h
    exact Entries.keeps_openTable _ _ _ _ fit opened
  | element key =>
    obtain ⟨es, opened, h⟩ := Option.bind_eq_some_iff.mp h
    cases h
    exact Entries.keeps_openElement _ _ _ _ fit opened

theorem fit_takeAll {d d' : Reading} (fit : d.entries.Fit) (h : d.takeAll cs = some d') : d'.entries.Fit := by
  fun_induction takeAll d cs with
  | case1 => cases h; exact fit
  | case2 => cases h
  | case3 _ _ _ _ _ _ _ _ ih => exact ih fit h
  | case4 => cases h
  | case5 => cases h
  | case6 d cs c r _ _ line read next taken ih => exact ih (fit_take fit (fits_of_readLine read) taken) h

end Reading
end

theorem fits_of_parse {text : String} {es : Entries} (h : parse text = some es) : es.Fit := by
  obtain ⟨d, taken, rfl⟩ := Option.map_eq_some_iff.mp h
  have nothing : Reading.start.entries.Fit := List.forall_mem_nil _
  exact Reading.fit_takeAll nothing taken

end StyleFeed.Toml

import StyleFeed.Proofs.Identity
import StyleFeed.Proofs.Sending

/-!
What a scan of the whole tree says, whatever was remembered before: `Feed.resync_exact`.
-/

namespace StyleFeed

open Message (Fits)

namespace Feed

variable {f g : Feed} {t : Tree}

/-- The reports of a scan that are sent. -/
def reported (f : Feed) (t : Tree) : List Message :=
  (f.reports t f.root.path).filter (Fits f.limit ·)

/-- The names that a scan takes back, if those that it finds are `names`. -/
def retracted (f : Feed) (names : List String) : List String :=
  f.known.toList.filter fun n => n ∉ names ∧ Fits f.limit (.deleted n)

theorem mem_retracted {names : List String} {n : String} :
    n ∈ f.retracted names ↔ n ∈ f.known ∧ n ∉ names ∧ Fits f.limit (.deleted n) := by
  rw [retracted, List.mem_filter, Names.mem_toList]
  simp

theorem mem_reported {m : Message} : m ∈ f.reported t ↔
    (∃ p ∈ t.sheets f.root f.root.path, f.report? t p = some m) ∧ Fits f.limit m := by
  rw [reported, List.mem_filter, reports, List.mem_filterMap, decide_eq_true_iff]

theorem kind_of_mem_reported {m : Message} (h : m ∈ f.reported t) : m.kind = .created :=
  kind_of_mem_reports (List.mem_filter.mp h).1

/-- From `f` to `g` the reports of a scan went out, and then the deletion of what was not among the names that it
found. -/
structure Scanned (f : Feed) (t : Tree) (names : List String) (g : Feed) : Prop where
  named : (t.sheets f.root f.root.path).mapM f.root.name = .ok names
  mem : ∀ n, n ∈ names ↔ ∃ p ∈ t.sheets f.root f.root.path, f.root.name p = .ok n
  sent : f.Sent (f.reported t ++ (f.retracted names).map .deleted) g

theorem resync_scanned (h : f.outlet.Faultless) (t : Tree) :
    ∃ g names, f.resync t = (.ok (), g) ∧ f.Scanned t names g ∧ g.outlet.Faultless := by
  obtain ⟨names, named, called, mem⟩ := f.messages_rescan t
  obtain ⟨g, handled, sent, faultless⟩ := handle_of_faultless h called
  have both : (f.known.toList.filter (· ∉ names)).filter ((Fits f.limit ·) ∘ Message.deleted) =
      f.retracted names := by
    rw [List.filter_filter, retracted]
    refine List.filter_congr fun n _ => ?_
    simp [Bool.and_comm]
  rw [List.filter_append, List.filter_map, both] at sent
  exact ⟨g, names, handled, ⟨named, mem, sent⟩, faultless⟩

namespace Scanned

variable {names : List String} (scan : f.Scanned t names g)
include scan

/-- What is reported has a name that was found. -/
theorem name_mem {m : Message} (h : m ∈ f.reported t) : m.name ∈ names := by
  obtain ⟨⟨p, hp, found⟩, -⟩ := mem_reported.mp h
  obtain ⟨name, content, named, -, rfl⟩ := report?_eq_some_iff.mp found
  exact (scan.mem _).mpr ⟨p, hp, named⟩

theorem apart {m : Message} (h : m ∈ f.reported t) : m.name ∉ f.retracted names :=
  fun gone => (mem_retracted.mp gone).2.1 (scan.name_mem h)

theorem mem_known {n : String} :
    n ∈ g.known ↔ (n ∈ f.known ∧ n ∉ f.retracted names) ∨ ∃ m ∈ f.reported t, m.name = n := by
  rw [scan.sent.known, List.foldl_append, Names.mem_foldl_deleted,
    Names.mem_foldl_created fun m => kind_of_mem_reported]
  constructor
  · rintro ⟨known | new, kept⟩
    · exact .inl ⟨known, kept⟩
    · exact .inr new
  · rintro (⟨known, kept⟩ | ⟨m, hm, rfl⟩)
    · exact ⟨.inl known, kept⟩
    · exact ⟨.inr ⟨m, hm, rfl⟩, scan.apart hm⟩

/-- If everything can be read and sent, what is known is what was found. -/
theorem mem_known_iff_found
    (readable : ∀ p ∈ t.sheets f.root f.root.path, ∃ m, f.report? t p = some m ∧ Fits f.limit m)
    (fits : ∀ n ∈ f.known, n ∉ names → Fits f.limit (.deleted n)) (n : String) :
    n ∈ g.known ↔ n ∈ names := by
  rw [scan.mem_known]
  constructor
  · rintro (⟨old, kept⟩ | ⟨m, hm, rfl⟩)
    · by_contra stale
      exact kept (mem_retracted.mpr ⟨old, stale, fits n old stale⟩)
    · exact scan.name_mem hm
  · intro hn
    obtain ⟨p, hp, name⟩ := (scan.mem n).mp hn
    obtain ⟨m, report, fitting⟩ := readable p hp
    refine .inr ⟨m, mem_reported.mpr ⟨⟨p, hp, report⟩, fitting⟩, ?_⟩
    obtain ⟨name', content, named', -, rfl⟩ := report?_eq_some_iff.mp report
    exact Except.ok.inj (named'.symm.trans name)

/-- Then a second scan reports the same again, and that is all. -/
theorem again {last : Feed} {names' : List String} (second : g.Scanned t names' last)
    (found : ∀ n, n ∈ g.known ↔ n ∈ names) :
    last.outlet.accepted = g.outlet.accepted ++ (f.reported t).flatMap Message.frame ∧
      last.known = g.known := by
  have same : names' = names := by
    have named := second.named
    rw [scan.sent.root, scan.named] at named
    exact (Except.ok.inj named).symm
  have nothing : g.retracted names' = [] := by
    refine List.filter_eq_nil_iff.mpr fun n hn => ?_
    simp [same, (found n).mp hn]
  have reported : g.reported t = f.reported t := by
    rw [Feed.reported, Feed.reported, reports_congr scan.sent.root, scan.sent.root, scan.sent.limit]
  constructor
  · rw [second.sent.accepted, nothing, reported, List.map_nil, List.append_nil]
  · refine Names.ext fun n => ?_
    rw [second.mem_known, nothing, reported]
    constructor
    · rintro (⟨known, -⟩ | ⟨m, hm, rfl⟩)
      · exact known
      · exact (found _).mpr (scan.name_mem hm)
    · exact fun known => .inl ⟨known, List.not_mem_nil⟩

end Scanned

/-- Whatever was remembered, a scan sends a report of each style sheet that can be read and fits, and then takes
back the names that no style sheet has, in ascending order of their bytes. If nothing is unreadable or too
large, the names are then those of the style sheets, and scanning again only reports them again. -/
theorem resync_exact {f : Feed} (h : f.outlet.Faultless) (t : Tree) :
    ∃ g names, f.resync t = (.ok (), g) ∧ (t.sheets f.root f.root.path).mapM f.root.name = .ok names ∧
      let created := ((t.sheets f.root f.root.path).filterMap (f.report? t)).filter (Fits f.limit ·)
      let gone := f.known.toList.filter fun n => n ∉ names ∧ Fits f.limit (.deleted n)
      g.outlet.accepted = f.outlet.accepted ++ (created ++ gone.map Message.deleted).flatMap Message.frame ∧
      gone.Pairwise (fun m n => Utf8.encode m < Utf8.encode n) ∧
      (∀ m ∈ created, m.name ∉ gone) ∧
      (∀ n, n ∈ g.known ↔ (n ∈ f.known ∧ n ∉ gone) ∨ ∃ m ∈ created, m.name = n) ∧
      ((∀ p ∈ t.sheets f.root f.root.path, ∃ m, f.report? t p = some m ∧ Fits f.limit m) →
        (∀ n ∈ f.known, n ∉ names → Fits f.limit (.deleted n)) →
        (∀ n, n ∈ g.known ↔ n ∈ names) ∧
        ∃ again, g.resync t = (.ok (), again) ∧
          again.outlet.accepted = g.outlet.accepted ++ created.flatMap Message.frame ∧
          again.known = g.known) := by
  obtain ⟨g, names, scanned, scan, faultless⟩ := resync_scanned h t
  have ascending : (f.retracted names).Pairwise fun m n => Utf8.encode m < Utf8.encode n :=
    (f.known.ascending.filter _).imp Utf8.encode_lt
  refine ⟨g, names, scanned, scan.named, scan.sent.accepted, ascending, fun _ => scan.apart,
    fun _ => scan.mem_known, fun readable fits => ?_⟩
  have found := scan.mem_known_iff_found readable fits
  obtain ⟨again, names', rescanned, second, -⟩ := resync_scanned faultless t
  exact ⟨found, again, rescanned, scan.again second found⟩

/-! Of three style sheets one is no text and one is too large. Three names are remembered, two of them rightly. -/
namespace ThreeSheets

open TwoDirectories (top)

/-- The style sheet that is called by one byte. -/
def sheet (b : UInt8) (h : FileName.IsProper (b :: dot :: FileName.sheetExtension)) : FileName :=
  ⟨b :: dot :: FileName.sheetExtension, h⟩

def a : FileName := sheet 0x61 TwoDirectories.sheet.proper
def b : FileName := sheet 0x62 (by decide)
def c : FileName := sheet 0x63 (by decide)

def tree : Tree where
  entries := [(top, .directory), (top ++ [a], .file [0x78]), (top ++ [b], .file [0xff]),
    (top ++ [c], .file (List.replicate 64 0x78))]
  workplace := []
  distinct := by decide
  rooted := by decide

/-- The first call to write takes a part, the second one is interrupted. -/
def feed : Feed where
  root := ⟨.ofString "/s"⟩
  limit := 48
  known := .ofList ["old", "b", "c"]
  outlet := ⟨[.takes 7, .fails (.ofKind .interrupted)], [none], [], 0⟩

theorem rescanned : feed.outlet.Faultless ∧ ∃ g, feed.resync tree = (.ok (), g) ∧
    g.outlet.accepted = [Message.created "a" "x", .deleted "old"].flatMap Message.frame ∧
    ∀ n, n ∈ g.known ↔ n ∈ ["a", "b", "c"] := by
  have faultless : feed.outlet.Faultless := ⟨by simp [feed, IoFault.ofKind], by simp [feed]⟩
  obtain ⟨g, names, scanned, named, accepted, -, -, known, -⟩ := resync_exact faultless tree
  have present : (tree.sheets feed.root feed.root.path).mapM feed.root.name = .ok ["a", "b", "c"] := by
    decide +kernel
  obtain rfl : ["a", "b", "c"] = names := Except.ok.inj (present.symm.trans named)
  have created : ((tree.sheets feed.root feed.root.path).filterMap (feed.report? tree)).filter
      (Fits feed.limit ·) = [.created "a" "x"] := by decide +kernel
  have gone : feed.known.toList.filter (fun n => n ∉ ["a", "b", "c"] ∧ Fits feed.limit (.deleted n)) =
      ["old"] := by decide +kernel
  rw [created, gone] at accepted
  refine ⟨faultless, g, scanned, accepted, fun n => ?_⟩
  have before : n ∈ feed.known ↔ n ∈ ["old", "b", "c"] := Names.mem_ofList
  rw [known, created, gone, before]
  simp only [List.mem_cons, List.not_mem_nil, or_false, exists_eq_left, Message.name]
  constructor
  · rintro (⟨rfl | kept, other⟩ | rfl)
    · exact absurd rfl other
    · exact .inr kept
    · exact .inl rfl
  · rintro (rfl | rfl | rfl)
    · exact .inr rfl
    · exact .inl ⟨.inr (.inl rfl), by decide⟩
    · exact .inl ⟨.inr (.inr rfl), by decide⟩

end ThreeSheets

end Feed
end StyleFeed

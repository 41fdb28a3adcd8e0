import Mathlib.Data.List.Forall2
import StyleFeed.Program
import StyleFeed.Proofs.Identity
import StyleFeed.Proofs.Preparing
import StyleFeed.Proofs.Rescan
import StyleFeed.Proofs.Splitting

/-!
One life cycle of the program, in which no change is noticed: `Program.reports_tree`. It reports each style sheet
below the root that is text and fits once, and nothing else, whatever is said to it; a beginning of that if the grace
time of a request to stop is over first. `Service.Standing` says where the service stands in such a life cycle by what
is past, one occasion after the other.
-/

namespace StyleFeed

open Message (Fits)

/-- The message reports what stands at the route below the root, a style sheet that is text, and fits. -/
def Root.Tells (root : Root) (t : Tree) (top r : Route) (m : Message) : Prop :=
  ∃ b content name, t.lookup? (top ++ r) = some (.file b) ∧ Utf8.decode? b = some content ∧
    root.isSheet (root.path.extend r) ∧ root.name (root.path.extend r) = .ok name ∧ m = .created name content ∧
    m.payload.length ≤ Feed.browserLimit

theorem forall₂_filterMap {α β : Type} {R : α → β → Prop} {f : α → Option β} {l : List α}
    (h : ∀ x ∈ l, ∀ y, f x = some y → R x y) :
    List.Forall₂ R (l.filter fun x => (f x).isSome) (l.filterMap f) := by
  induction l with
  | nil => exact .nil
  | cons x rest ih =>
    obtain ⟨first, others⟩ := List.forall_mem_cons.mp h
    cases found : f x with
    | none =>
      rw [List.filterMap_cons_none found, List.filter_cons_of_neg (by simp [found])]
      exact ih others
    | some y =>
      rw [List.filterMap_cons_some found, List.filter_cons_of_pos (by simp [found])]
      exact .cons (first y found) (ih others)

namespace Feed

variable {f : Feed} {t : Tree} {top r : Route}

/-- The report of the style sheet at a route below the root, if it is sent. -/
def told? (f : Feed) (t : Tree) (r : Route) : Option Message :=
  (f.report? t (f.root.path.extend r)).filter (Fits f.limit ·)

theorem reported_eq (f : Feed) (t : Tree) :
    f.reported t = (t.sheetRoutes f.root f.root.path).filterMap (f.told? t) := by
  rw [reported, reports, Tree.sheets, List.filterMap_map, List.filter_filterMap]
  rfl

theorem told?_eq_some_iff (plain : t.NulFree) (limit : f.limit = browserLimit)
    (directory : t.resolve f.root.path = .ok (top, .directory)) {m : Message} :
    r ∈ t.sheetRoutes f.root f.root.path ∧ f.told? t r = some m ↔ f.root.Tells t top r m := by
  obtain ⟨located, here⟩ := Tree.resolve_eq_ok_iff.mp directory
  have leads : f.root.Leads r (f.root.path.extend r) := Root.leads_extend f.root r
  have resolve {b : Bytes} (file : t.lookup? (top ++ r) = some (.file b)) :
      t.resolve (f.root.path.extend r) = .ok (top ++ r, .file b) := by
    have clear : t.Clear top r := Tree.clear_of_lookup? file (fun target link => nomatch link)
    have names : ∀ n ∈ r, 0 ∉ n.bytes := fun n mem => plain _ _ file n (List.mem_append_right top mem)
    exact (Tree.resolve_extend located here clear names).mpr ⟨rfl, file⟩
  rw [told?, Option.filter_eq_some_iff, report?_eq_some_iff, Tree.mem_sheetRoutes_iff directory,
    ← leads.isSheet_iff]
  constructor
  · rintro ⟨⟨sheet, b, file⟩, ⟨name, content, named, read, rfl⟩, fits⟩
    obtain ⟨x, b', found, decoded⟩ := Tree.readText_eq_ok_iff.mp read
    cases (resolve file).symm.trans found
    have fits := (of_decide_eq_true fits).1
    rw [limit] at fits
    exact ⟨b, content, name, file, decoded, sheet, named, rfl, fits⟩
  · rintro ⟨b, content, name, file, decoded, sheet, named, rfl, fits⟩
    have read := Tree.readText_eq_ok_iff.mpr ⟨top ++ r, b, resolve file, decoded⟩
    have fits' : Fits f.limit (.created name content) := by
      rw [limit]
      exact ⟨fits, Nat.le_trans fits (by decide)⟩
    exact ⟨⟨sheet, b, file⟩, ⟨name, content, named, read, rfl⟩, decide_eq_true fits'⟩

/-- A scan reports each of these style sheets once. -/
theorem reported_spec (plain : t.NulFree) (limit : f.limit = browserLimit)
    (directory : t.resolve f.root.path = .ok (top, .directory)) :
    ∃ routes : List Route, routes.Nodup ∧ (∀ r, r ∈ routes ↔ ∃ m, f.root.Tells t top r m) ∧
      List.Forall₂ (f.root.Tells t top) routes (f.reported t) := by
  have told (r m) := f.told?_eq_some_iff (r := r) (m := m) plain limit directory
  refine ⟨(t.sheetRoutes f.root f.root.path).filter fun r => (f.told? t r).isSome,
    (t.nodup_sheetRoutes f.root f.root.path).filter _, ?_, ?_⟩
  · intro r
    simp only [List.mem_filter, Option.isSome_iff_exists, ← told, exists_and_left]
  · rw [f.reported_eq]
    apply forall₂_filterMap
    intro r found m report
    exact (told r m).mp ⟨found, report⟩

/-- A reader gets the reports back. -/
theorem readAll_reported (f : Feed) (t : Tree) :
    Frame.readAll [.data ((f.reported t).flatMap Message.frame)] = ((f.reported t).map Message.payload, none) ∧
      ((f.reported t).map Message.payload).map Message.parse = (f.reported t).map .ok := by
  have fits : ∀ m ∈ f.reported t, m.Fits f.limit := by
    intro m mem
    exact (mem_reported.mp mem).2
  constructor
  · exact Message.readAll_frames fits
  · rw [List.map_map]
    apply List.map_congr_left
    intro m _
    rw [Function.comp_apply, Message.parse_payload]

/-- A first scan puts out what there is to report, and takes nothing back. -/
theorem scan_new {f : Feed} (faultless : f.outlet.Faultless) (new : f.known = .empty) (t : Tree) :
    ∃ g, f.handle t .rescan = (.ok (), g) ∧
      g.outlet.accepted = f.outlet.accepted ++ (f.reported t).flatMap Message.frame := by
  obtain ⟨g, names, scanned, scan, -⟩ := resync_scanned faultless t
  have nothing : f.retracted names = [] := by
    rw [retracted, new]
    rfl
  refine ⟨g, scanned, ?_⟩
  rw [scan.sent.accepted, nothing, List.map_nil, List.append_nil]

end Feed

/-- The directories that had to be made hold nothing to report. -/
theorem Root.tells_of_grows {t t' : Tree} (grows : t.Grows t') (root : Root) (top : Route) :
    root.Tells t' top = root.Tells t top := by
  funext r m
  simp only [Tells, grows.lookup?_eq_file_iff]

namespace Occasion

def isInput : Occasion → Bool
  | heard _ | disconnected _ => true
  | _ => false

/-- When the occasion asks the service to stop, if it does. -/
def stops? : Occasion → Option Instant
  | disconnected now | signalled now => some now
  | _ => none

/-- The tree that the reporting is at work on. -/
def tree? : Occasion → Option Tree
  | worked t | waited t _ _ => some t
  | _ => none

/-- All that the delivery delivers on these occasions. -/
def delivered : Except Delivery.Halt Delivery → List Occasion → List Event
  | _, [] => []
  | d, received t r now :: rest =>
    match d.bind fun d => d.turn t r now with
    | .ok (events, d) => events ++ delivered (.ok d) rest
    | .error _ => []
  | d, _ :: rest => delivered d rest

/-- The input is read to its end, the tree stays as it is, and no event is delivered. -/
structure Quiet (t : Tree) (input : Source) (d : Except Delivery.Halt Delivery) (occasions : List Occasion) : Prop where
  said : ∃ now, occasions.filter isInput = ofInput input now
  still : ∀ o ∈ occasions, ∀ u ∈ o.tree?, u = t
  nothing : delivered d occasions = []

/-- After a request to stop the grace time is over before the reporting has got on. -/
def Overran (occasions : List Occasion) : Prop :=
  ∃ before t out now after, occasions = before ++ waited t out now :: after ∧ (∀ u, worked u ∉ before) ∧
    ∃ since ∈ before.findSome? stops?, since + Service.stopGrace ≤ now

/-- The reporting gets on, having got on before and after a request to stop. -/
def Through (occasions : List Occasion) : Prop :=
  ∃ before t after, occasions = before ++ worked t :: after ∧ (∃ u, worked u ∈ before) ∧
    ∃ o ∈ before, (stops? o).isSome

/-- All that an input amounts to, and then the reporting, which gets on in time. -/
def prompt (t : Tree) (input : Source) (now : Instant) : List Occasion :=
  ofInput input now ++ [worked t, worked t]

theorem quiet_prompt (t : Tree) (input : Source) (d : Except Delivery.Halt Delivery) (now : Instant) :
    Quiet t input d (prompt t input now) where
  said := by
    refine ⟨now, ?_⟩
    have all : ∀ o ∈ ofInput input now, o.isInput := by
      intro o mem
      rcases List.mem_append.mp mem with mem | mem
      · obtain ⟨frame, -, rfl⟩ := List.mem_map.mp mem
        rfl
      · rw [List.mem_singleton.mp mem]
        rfl
    rw [prompt, List.filter_append, List.filter_eq_self.mpr all]
    exact List.append_nil _
  still := by
    intro o mem u tree
    simp only [prompt, ofInput, List.mem_append, List.mem_map, List.mem_cons, List.not_mem_nil, or_false,
      or_self] at mem
    rcases mem with (⟨frame, -, rfl⟩ | rfl) | rfl
    · cases tree
    · cases tree
    · exact (Option.mem_some_iff.mp tree).symm
  nothing := by
    rw [prompt, ofInput]
    induction (Frame.readAll input).1 with
    | nil => rfl
    | cons frame rest ih => exact ih

theorem through_prompt (t : Tree) (input : Source) (now : Instant) : Through (prompt t input now) := by
  refine ⟨ofInput input now ++ [worked t], t, [], List.append_cons .., ⟨t, List.mem_append_right _ List.mem_cons_self⟩,
    disconnected now, ?_, rfl⟩
  simp [ofInput]

theorem not_overran_prompt (t : Tree) (input : Source) (now : Instant) : ¬ Overran (prompt t input now) := by
  rintro ⟨before, u, out, late, after, split, -⟩
  have mem : waited u out late ∈ prompt t input now := by
    rw [split]
    exact List.mem_append_right _ List.mem_cons_self
  simp [prompt, ofInput] at mem

theorem delivered_halted (halt : Delivery.Halt) (occasions : List Occasion) :
    delivered (.error halt) occasions = [] := by
  induction occasions with
  | nil => rfl
  | cons o rest ih =>
    cases o with
    | received => rfl
    | _ => exact ih

end Occasion

namespace Service

open Occasion (delivered stops? tree?)

@[simp]
theorem attend_cons (s : Service) (o : Occasion) (rest : List Occasion) :
    s.attend (o :: rest) = (s.step o).bind (·.attend rest) := by
  rw [attend, List.foldlM_cons]
  rfl

theorem attend_append (s : Service) (before after : List Occasion) :
    s.attend (before ++ after) = (s.attend before).bind (·.attend after) := by
  rw [attend, List.foldlM_append]
  rfl

/-- It is one of the occasions that ends the service. -/
theorem exists_of_attend_eq_error {s : Service} {occasions : List Occasion} {ending : Ending}
    (h : s.attend occasions = .error ending) : ∃ before o after s', occasions = before ++ o :: after ∧
      s.attend before = .ok s' ∧ s'.step o = .error ending := by
  induction occasions generalizing s with
  | nil => cases h
  | cons o rest ih =>
    rw [attend_cons] at h
    cases stepped : s.step o with
    | error e =>
      rw [stepped] at h
      exact ⟨[], o, rest, s, rfl, rfl, stepped.trans h⟩
    | ok s₁ =>
      rw [stepped] at h
      obtain ⟨before, o', after, s', rfl, attended, ends⟩ := ih h
      refine ⟨o :: before, o', after, s', rfl, ?_, ends⟩
      rw [attend_cons, stepped]
      exact attended

theorem exists_of_attend_eq_ok {s last : Service} {before after : List Occasion} {o : Occasion}
    (h : s.attend (before ++ o :: after) = .ok last) : ∃ s' s'', s.attend before = .ok s' ∧ s'.step o = .ok s'' := by
  rw [attend_append] at h
  cases attended : s.attend before with
  | error ending =>
    rw [attended] at h
    cases h
  | ok s' =>
    rw [attended, Except.bind, attend_cons] at h
    cases stepped : s'.step o with
    | error ending =>
      rw [stepped] at h
      cases h
    | ok s'' => exact ⟨s', s'', rfl, stepped⟩

/-- Where the service stands when these occasions are past: with its first scan in hand, by which one feed becomes the
other, or with nothing more to do. -/
structure Standing (f g : Feed) (past : List Occasion) (s : Service) : Prop where
  queue : s.queue = []
  hand : s.hand = some .rescan ∧ s.feed = f ∧ (∀ u, .worked u ∉ past) ∨ s.hand = none ∧ s.feed = g
  stopping : s.stopping = past.findSome? stops?
  halted : s.stopping.isSome → ∃ halt, s.delivery = .error halt

variable {f g : Feed} {t : Tree} {past rest : List Occasion} {s s' : Service} {o : Occasion}

theorem Standing.idle (standing : Standing f g past s) {u : Tree} (worked : .worked u ∈ past) :
    s.hand = none ∧ s.feed = g := by
  rcases standing.hand with ⟨-, -, unworked⟩ | idle
  · exact absurd worked (unworked u)
  · exact idle

/-- The occasion does not touch what is in hand. -/
theorem Standing.aside (standing : Standing f g past s) (unworked : ∀ u, o ≠ .worked u) (queue : s'.queue = s.queue)
    (hand : s'.hand = s.hand) (feed : s'.feed = s.feed) (stopping : s'.stopping = s.stopping.or o.stops?)
    (halted : s'.stopping.isSome → ∃ halt, s'.delivery = .error halt) : Standing f g (past ++ [o]) s' where
  queue := queue.trans standing.queue
  hand := by
    rw [hand, feed]
    refine standing.hand.imp_left fun ⟨scan, begun, before⟩ => ⟨scan, begun, fun u mem => ?_⟩
    rcases List.mem_append.mp mem with mem | mem
    · exact before u mem
    · exact unworked u (List.mem_singleton.mp mem).symm
  stopping := by
    rw [stopping, standing.stopping, List.findSome?_append, List.findSome?_singleton]
  halted := halted

theorem Standing.step (standing : Standing f g past s) (scan : f.handle t .rescan = (.ok (), g))
    (still : ∀ u ∈ o.tree?, u = t) (nothing : delivered s.delivery (o :: rest) = []) (h : s.step o = .ok s') :
    Standing f g (past ++ [o]) s' ∧ delivered s'.delivery rest = [] := by
  cases o with
  | heard frame =>
    cases h
    exact ⟨standing.aside nofun rfl rfl rfl (Option.or_none).symm standing.halted, nothing⟩
  | disconnected now | signalled now =>
    cases h
    exact ⟨standing.aside nofun rfl rfl rfl rfl fun _ => ⟨_, rfl⟩, Occasion.delivered_halted ..⟩
  | received u r now =>
    cases h
    rw [deliver]
    rw [delivered] at nothing
    cases turned : s.delivery.bind fun d => d.turn u r now with
    | error halt =>
      have halted : Standing f g (past ++ [.received u r now]) { s with delivery := .error halt } :=
        standing.aside nofun rfl rfl rfl (Option.or_none).symm fun _ => ⟨halt, rfl⟩
      exact ⟨halted, Occasion.delivered_halted ..⟩
    | ok result =>
      obtain ⟨events, d⟩ := result
      rw [turned] at nothing
      obtain ⟨rfl, nothing⟩ := List.append_eq_nil_iff.mp nothing
      refine ⟨standing.aside nofun (List.append_nil _) rfl rfl (Option.or_none).symm fun told => ?_, nothing⟩
      obtain ⟨halt, halted⟩ := standing.halted told
      rw [halted] at turned
      cases turned
  | worked u =>
    obtain rfl := still u rfl
    rw [Service.step, work] at h
    have stopping : s.stopping = (past ++ [Occasion.worked u]).findSome? stops? := by
      rw [standing.stopping, List.findSome?_append]
      exact (Option.or_none).symm
    rcases standing.hand with ⟨first, rfl, -⟩ | ⟨idle, rfl⟩
    · rw [first, report, first] at h
      simp only [scan] at h
      cases h
      exact ⟨⟨standing.queue, .inr ⟨rfl, rfl⟩, stopping, standing.halted⟩, nothing⟩
    · rw [idle, take, standing.queue] at h
      cases delivery : s.delivery with
      | error halt =>
        rw [delivery] at h
        cases h
      | ok d =>
        rw [delivery] at h
        cases h
        exact ⟨⟨standing.queue, .inr ⟨idle, rfl⟩, stopping, standing.halted⟩, nothing⟩
  | waited u out now =>
    rw [Service.step] at h
    split at h
    · cases h
    · cases h
      exact ⟨standing.aside nofun rfl rfl rfl (Option.or_none).symm standing.halted, nothing⟩

/-- The service never fails. It has put out all that its scan reports, unless it was left behind with it. -/
theorem Standing.ending {ending : Ending} (standing : Standing f g past s) (scan : f.handle t .rescan = (.ok (), g))
    (still : ∀ u ∈ o.tree?, u = t) (h : s.step o = .error ending) :
    ending.failure? = none ∧ (ending.output = g.outlet.accepted ∨
      ∃ out now, o = .waited t out now ∧ (∀ u, .worked u ∉ past) ∧
        (∃ since ∈ past.findSome? stops?, since + stopGrace ≤ now) ∧
        ending.output = g.outlet.accepted.take (f.outlet.accepted.length + out)) := by
  cases o with
  | heard | disconnected | signalled | received => cases h
  | worked u =>
    obtain rfl := still u rfl
    rw [Service.step, work] at h
    rcases standing.hand with ⟨first, rfl, -⟩ | ⟨idle, rfl⟩
    · rw [first, report, first] at h
      simp only [scan] at h
      cases h
    · rw [idle, take, standing.queue] at h
      cases delivery : s.delivery with
      | error halt =>
        rw [delivery] at h
        cases h
        exact ⟨rfl, .inl rfl⟩
      | ok d =>
        rw [delivery] at h
        cases h
  | waited u out now =>
    obtain rfl := still u rfl
    rw [Service.step] at h
    split at h
    · rename_i late
      cases h
      refine ⟨rfl, ?_⟩
      rw [GraceOver, standing.stopping] at late
      rw [leave, report]
      rcases standing.hand with ⟨first, rfl, unworked⟩ | ⟨idle, rfl⟩
      · refine .inr ⟨out, now, rfl, unworked, late, ?_⟩
        rw [first]
        simp only [scan]
      · rw [idle]
        exact .inl (List.take_of_length_le (Nat.le_add_right ..))
    · cases h

/-- As long as the service goes on, it stands where what is past says. -/
theorem Standing.attend {occasions : List Occasion} (standing : Standing f g past s)
    (scan : f.handle t .rescan = (.ok (), g)) (still : ∀ o ∈ occasions, ∀ u ∈ o.tree?, u = t)
    (nothing : delivered s.delivery (occasions ++ rest) = []) (h : s.attend occasions = .ok s') :
    Standing f g (past ++ occasions) s' := by
  induction occasions generalizing s past with
  | nil =>
    cases h
    rwa [List.append_nil]
  | cons o occasions ih =>
    rw [attend_cons] at h
    cases stepped : s.step o with
    | error ending =>
      rw [stepped] at h
      cases h
    | ok s₁ =>
      rw [stepped] at h
      obtain ⟨first, others⟩ := List.forall_mem_cons.mp still
      obtain ⟨standing, nothing⟩ := standing.step scan first nothing stepped
      rw [List.append_cons]
      exact ih standing others nothing h

/-- In quiet what the service puts out is what its first scan reports, or a beginning of that if it is left behind. -/
theorem attend_quiet {input : Source} {occasions : List Occasion} {d : Except Delivery.Halt Delivery}
    (quiet : Occasion.Quiet t input d occasions) (scan : f.handle t .rescan = (.ok (), g)) :
    let s : Service := ⟨f, d, [], some .rescan, none⟩
    (∀ ending, s.attend occasions = .error ending → ending.failure? = none ∧
      (∃ out, ending.output = g.outlet.accepted.take (f.outlet.accepted.length + out)) ∧
      (¬ Occasion.Overran occasions → ending.output = g.outlet.accepted)) ∧
    (Occasion.Overran occasions ∨ Occasion.Through occasions → ∃ ending, s.attend occasions = .error ending) := by
  intro s
  have start : Standing f g [] s := ⟨rfl, .inl ⟨rfl, rfl, nofun⟩, rfl, nofun⟩
  have reaches {before after : List Occasion} (split : occasions = before ++ after) {s' : Service}
      (attended : s.attend before = .ok s') : Standing f g before s' := by
    refine start.attend scan (fun o mem => quiet.still o ?_) (split ▸ quiet.nothing) attended
    rw [split]
    exact List.mem_append_left _ mem
  constructor
  · intro ending ends
    obtain ⟨before, o, after, s', split, attended, last⟩ := exists_of_attend_eq_error ends
    have still : ∀ u ∈ o.tree?, u = t := by
      refine quiet.still o ?_
      rw [split]
      exact List.mem_append_right _ List.mem_cons_self
    obtain ⟨fine, whole | ⟨out, now, rfl, unworked, late, output⟩⟩ := (reaches split attended).ending scan still last
    · refine ⟨fine, ⟨g.outlet.accepted.length, ?_⟩, fun _ => whole⟩
      rw [whole, List.take_of_length_le (Nat.le_add_left ..)]
    · exact ⟨fine, ⟨out, output⟩, fun inTime => (inTime ⟨before, _, out, now, after, split, unworked, late⟩).elim⟩
  · intro must
    cases attended : s.attend occasions with
    | error ending => exact ⟨ending, rfl⟩
    | ok last =>
      -- the service does not go on after the occasion that is named
      exfalso
      rcases must with ⟨before, _, _, _, after, split, -, late⟩ | ⟨before, _, after, split, ⟨v, worked⟩, o, mem, told⟩
      · rw [split] at attended
        obtain ⟨s', s'', reached, stepped⟩ := exists_of_attend_eq_ok attended
        rw [step, if_pos (by rwa [GraceOver, (reaches split reached).stopping])] at stepped
        cases stepped
      · rw [split] at attended
        obtain ⟨s', s'', reached, stepped⟩ := exists_of_attend_eq_ok attended
        have standing := reaches split reached
        have stopping : s'.stopping.isSome := by
          rw [standing.stopping, List.findSome?_isSome_iff]
          exact ⟨o, mem, told⟩
        obtain ⟨halt, halted⟩ := standing.halted stopping
        rw [step, work, (standing.idle worked).1, take, standing.queue, halted] at stepped
        cases stepped

end Service

namespace Program

/-- Called to serve, the program begins with a scan of the root as it was prepared. -/
theorem begin_eq_ok {s : Surroundings} {t t' : Tree} {root : Root} {top : Route} {arguments : List Bytes}
    {line : CommandLine} (prepared : Root.prepare t s.location = .ok (t', root))
    (directory : t'.resolve root.path = .ok (top, .directory)) (parsed : CommandLine.ofArguments arguments = .ok line)
    (noManifest : line.printManifest = none) (outlet : Outlet) (now : Instant) :
    begin s t arguments outlet now = .ok (t', ⟨.start root Feed.browserLimit outlet,
      Delivery.start (Tuning.load t' root.path).schedule now, [], some .rescan, none⟩) := by
  have watched : t'.watch root.path = .ok () := by
    rw [Tree.watch, Tree.exists, directory]
    rfl
  simp only [begin, parsed, noManifest, Service.prepare, prepared, watched]

/-- In a life cycle in which no change is noticed the program reports the tree: each style sheet below the root that
is text and fits, once, and nothing else. What is said to it, and how it is called, makes no difference. It is left
behind with its scan, and what is out then is a beginning of the same, only when the grace time of a request to stop
is over before; otherwise it ends when the scan is through and it is to stop. -/
theorem reports_tree {s : Surroundings} {t t' : Tree} {root : Root} (plain : t.NulFree)
    (prepared : Root.prepare t s.location = .ok (t', root)) :
    ∃ top routes ms output, root.path = Path.extend ⟨[slash]⟩ top ∧ t'.lookup? top = some .directory ∧
      routes.Nodup ∧ (∀ r, r ∈ routes ↔ ∃ m, root.Tells t top r m) ∧ List.Forall₂ (root.Tells t top) routes ms ∧
      Frame.readAll [.data output] = (ms.map Message.payload, none) ∧
      (ms.map Message.payload).map Message.parse = ms.map .ok ∧
      ∀ arguments line input outlet now occasions, CommandLine.ofArguments arguments = .ok line →
        line.printManifest = none → outlet.Faultless → outlet.accepted = [] →
        Occasion.Quiet t' input (Delivery.start (Tuning.load t' root.path).schedule now) occasions →
        (∀ x, run s t arguments occasions outlet now = some x → x.exitCode = 0 ∧
          (∃ out, x = .served (output.take out)) ∧ (¬ Occasion.Overran occasions → x = .served output)) ∧
        (Occasion.Overran occasions ∨ Occasion.Through occasions →
          ∃ x, run s t arguments occasions outlet now = some x) := by
  obtain ⟨grows, top, path, here⟩ := Root.prepare_spec prepared
  have directory : t'.resolve root.path = .ok (top, .directory) := by
    rw [path]
    exact Tree.resolve_top (grows.noNul plain) here
  -- the reports are those of any feed with this root and limit, so they are given before the run is
  let f : Feed := .start root Feed.browserLimit .willing
  obtain ⟨routes, once, mem, reports⟩ := f.reported_spec (grows.noNul plain) rfl directory
  obtain ⟨read, parsed⟩ := f.readAll_reported t'
  rw [Root.tells_of_grows grows] at mem reports
  refine ⟨top, routes, f.reported t', (f.reported t').flatMap Message.frame, path, here, once, mem, reports, read,
    parsed, ?_⟩
  intro arguments line input outlet now occasions parsed noManifest faultless new quiet
  obtain ⟨g, scanned, accepted⟩ := Feed.scan_new (f := .start root Feed.browserLimit outlet) faultless rfl t'
  rw [show (Feed.start root Feed.browserLimit outlet).outlet.accepted = [] from new, List.nil_append] at accepted
  obtain ⟨ends, ended⟩ := Service.attend_quiet quiet scanned
  rw [run, begin_eq_ok prepared directory parsed noManifest]
  dsimp only
  constructor
  · intro x ran
    split at ran
    · cases ran
    · rename_i ending attended
      cases ran
      obtain ⟨fine, ⟨out, output⟩, whole⟩ := ends ending attended
      have served : Outcome.ofEnding ending = .served ending.output := by
        obtain ⟨_, _⟩ := ending
        cases fine
        rfl
      rw [served]
      refine ⟨rfl, ⟨outlet.accepted.length + out, ?_⟩, fun inTime => ?_⟩
      · rw [output, accepted]
        rfl
      · rw [whole inTime, accepted]
        rfl
  · intro must
    obtain ⟨ending, attended⟩ := ended must
    rw [attended]
    exact ⟨_, rfl⟩

/-! Of three files one is a style sheet that is text. -/
namespace ThreeFiles

def dir : Route := [⟨[0x64], Feed.DirectoryMove.d.proper⟩, ⟨Utf8.encode "userstyles", by decide⟩]

def a : FileName := ⟨Utf8.encode "a.css", by decide⟩
def b : FileName := ⟨Utf8.encode "b.css", by decide⟩
def c : FileName := ⟨Utf8.encode "c.txt", by decide⟩

def tree : Tree where
  entries := [(dir.take 1, .directory), (dir, .directory), (dir ++ [a], .file [0x78]), (dir ++ [b], .file [0xff]),
    (dir ++ [c], .file [0x79])]
  workplace := []
  distinct := by decide
  rooted := by decide

def surroundings : Surroundings := ⟨.ofString "/h", some (.ofString "/d"), .ofString "/p"⟩

def root : Root := ⟨.ofString "/d/userstyles"⟩

theorem prepared : ∃ t', Root.prepare tree surroundings.location = .ok (t', root) ∧
    run surroundings tree [] (Occasion.prompt t' [] 0) .willing 0 = some (.served (Message.created "a" "x").frame) ∧
    run surroundings tree [] [.disconnected 0, .waited t' 0 Service.stopGrace] .willing 0 = some (.served []) := by
  have found : (Root.prepare tree surroundings.location).toOption.map (fun (t', root) =>
      (root, run surroundings tree [] (Occasion.prompt t' [] 0) .willing 0,
        run surroundings tree [] [.disconnected 0, .waited t' 0 Service.stopGrace] .willing 0)) =
      some (root, some (.served (Message.created "a" "x").frame), some (.served [])) := by decide +kernel
  cases made : Root.prepare tree surroundings.location with
  | error fault =>
    rw [made] at found
    cases found
  | ok result =>
    obtain ⟨t', root'⟩ := result
    rw [made] at found
    simp only [Except.toOption, Option.map_some, Option.some.injEq, Prod.mk.injEq] at found
    obtain ⟨rfl, prompt, late⟩ := found
    exact ⟨t', rfl, prompt, late⟩

theorem served_alike : tree.NulFree ∧ ∃ t', Root.prepare tree surroundings.location = .ok (t', root) ∧
    ∀ input now, Occasion.Quiet t' input (Delivery.start (Tuning.load t' root.path).schedule now)
        (Occasion.prompt t' input now) ∧
      run surroundings tree [] (Occasion.prompt t' input now) .willing now =
        some (.served (Message.created "a" "x").frame) := by
  have plain : tree.NulFree := by decide
  obtain ⟨t', made, one, -⟩ := prepared
  obtain ⟨top, routes, ms, output, -, -, -, -, -, -, -, every⟩ := reports_tree plain made
  have willing : Outlet.willing.Faultless := Outlet.Willing.faultless ⟨rfl, rfl⟩
  have served (input now) : run surroundings tree [] (Occasion.prompt t' input now) .willing now =
      some (.served output) := by
    obtain ⟨whole, ends⟩ := every [] ⟨none, none, []⟩ input .willing now _ (by decide) rfl willing rfl
      (Occasion.quiet_prompt ..)
    obtain ⟨x, ran⟩ := ends (.inr (Occasion.through_prompt ..))
    rw [ran, (whole x ran).2.2 (Occasion.not_overran_prompt _ _ _)]
  refine ⟨plain, t', made, fun input now => ⟨Occasion.quiet_prompt .., ?_⟩⟩
  rw [served, ← served [] 0, one]

/-- What there is to report is left behind when the grace time is over first, and is not looked for when the arguments
are refused. -/
theorem cut_short : ∃ t', Root.prepare tree surroundings.location = .ok (t', root) ∧
    run surroundings tree [] (Occasion.prompt t' [] 0) .willing 0 = some (.served (Message.created "a" "x").frame) ∧
    run surroundings tree [] [.disconnected 0, .waited t' 0 Service.stopGrace] .willing 0 = some (.served []) ∧
    run surroundings tree [Utf8.encode "--log-level"] [] .willing 0 = some (.refused .missingValue) ∧
    (Outcome.refused .missingValue).exitCode = 2 := by
  obtain ⟨t', made, prompt, late⟩ := prepared
  exact ⟨t', made, prompt, late, by decide +kernel, rfl⟩

end ThreeFiles

end Program
end StyleFeed

import Mathlib.Data.List.Nodup
import Mathlib.Data.List.Pairwise
import Mathlib.Logic.ExistsUnique
import Mathlib.Logic.Relation

/-! Recursive walks of a graph. The items of a node are gone through in order, and an item that
leads to another node is followed at once. The route of an item is made of the items followed. -/

namespace YuzuOS.Library.Routes

variable {ν α β γ : Type*}

/-- The lists of all items, one behind the other. -/
def gather (f : α → Option (List γ)) : List α → Option (List γ)
  | [] => some []
  | item :: rest => (f item).bind fun first => (gather f rest).map (first ++ ·)

/-- The stop at an item, and the stops behind it. -/
def stopsAt (next : α → Option ν) (follow : ν → Option (List (List α × α))) (item : α) : Option (List (List α × α)) :=
  ((next item).elim (some []) follow).map fun behind => ([], item) :: behind.map fun stop => (item :: stop.1, stop.2)

/-- All stops with their routes, unless the walk goes deeper than the first argument. -/
def walk (items : ν → List α) (next : α → Option ν) : Nat → ν → Option (List (List α × α))
  | 0, _ => none
  | depth + 1, node => gather (stopsAt next (walk items next depth)) (items node)

/-- An item that is reached from a node along a route. -/
def Visits (lies : ν → α → Prop) (next : α → Option ν) : ν → List α → α → Prop
  | node, [], item => lies node item
  | node, first :: route, item => lies node first ∧ ∃ child, next first = some child ∧ Visits lies next child route item

/-- Node to node. -/
def Leads (lies : ν → α → Prop) (next : α → Option ν) (child node : ν) : Prop :=
  ∃ item, lies node item ∧ next item = some child

variable {items : ν → List α} {next : α → Option ν} {entry : α → Option β} {follow : ν → Option (List (List α × α))}
  {f g : α → Option (List γ)} {list : List α} {all : List γ} {stops : List (List α × α)} {depth : Nat} {node : ν}

theorem gather_mem (ran : gather f list = some all) {x : γ} :
    x ∈ all ↔ ∃ item ∈ list, ∃ found, f item = some found ∧ x ∈ found := by
  induction list generalizing all with
  | nil =>
    rw [← Option.some.inj ran]
    simp
  | cons item rest ih =>
    obtain ⟨first, here, ran⟩ := Option.bind_eq_some_iff.mp ran
    obtain ⟨more, later, same⟩ := Option.map_eq_some_iff.mp ran
    rw [← same, List.mem_append, ih later]
    simp [here]

theorem gather_ends : (∃ all, gather f list = some all) ↔ ∀ item ∈ list, ∃ found, f item = some found := by
  induction list with
  | nil => exact iff_of_true ⟨[], rfl⟩ nofun
  | cons item rest ih =>
    rw [List.forall_mem_cons, ← ih]
    constructor
    · intro ends
      obtain ⟨all, ran⟩ := ends
      obtain ⟨first, here, ran⟩ := Option.bind_eq_some_iff.mp ran
      obtain ⟨more, later, -⟩ := Option.map_eq_some_iff.mp ran
      exact ⟨⟨first, here⟩, more, later⟩
    · intro ends
      obtain ⟨⟨first, here⟩, more, later⟩ := ends
      exact ⟨first ++ more, by rw [gather, here, later]; rfl⟩

theorem gather_congr (same : ∀ item ∈ list, f item = g item) : gather f list = gather g list := by
  induction list with
  | nil => rfl
  | cons item rest ih =>
    rw [List.forall_mem_cons] at same
    rw [gather, gather, same.1, ih same.2]

/-- Lists that belong to their items have no duplicates when there are none within them. -/
theorem gather_nodup (ran : gather f list = some all) (distinct : list.Nodup) (owner : γ → α)
    (each : ∀ item ∈ list, ∀ found, f item = some found → found.Nodup ∧ ∀ x ∈ found, owner x = item) : all.Nodup := by
  induction list generalizing all with
  | nil =>
    rw [← Option.some.inj ran]
    exact List.nodup_nil
  | cons item rest ih =>
    obtain ⟨first, here, ran⟩ := Option.bind_eq_some_iff.mp ran
    obtain ⟨more, later, same⟩ := Option.map_eq_some_iff.mp ran
    rw [List.forall_mem_cons] at each
    obtain ⟨outside, distinctRest⟩ := List.nodup_cons.mp distinct
    obtain ⟨distinctFirst, owned⟩ := each.1 first here
    rw [← same, List.nodup_append]
    refine ⟨distinctFirst, ih later distinctRest each.2, fun x member y behind equal => ?_⟩
    obtain ⟨other, place, found, ran, within⟩ := (gather_mem later).mp behind
    have owners : other = item := ((each.2 other place found ran).2 y within).symm.trans (equal ▸ owned x member)
    exact outside (owners ▸ place)

theorem stopsAt_mem {item last : α} {route : List α} (ran : stopsAt next follow item = some stops) :
    (route, last) ∈ stops ↔ route = [] ∧ last = item ∨
      ∃ rest child behind, route = item :: rest ∧ next item = some child ∧ follow child = some behind ∧
        (rest, last) ∈ behind := by
  obtain ⟨behind, followed, same⟩ := Option.map_eq_some_iff.mp ran
  rw [← same, List.mem_cons, List.mem_map, Prod.mk.injEq]
  refine or_congr_right ?_
  cases leads : next item with
  | none =>
    rw [leads] at followed
    rw [← Option.some.inj followed]
    simp
  | some child =>
    rw [leads] at followed
    constructor
    · intro member
      obtain ⟨⟨rest, other⟩, member, equal⟩ := member
      obtain ⟨rfl, rfl⟩ := Prod.mk.inj equal
      exact ⟨rest, child, behind, rfl, rfl, followed, member⟩
    · intro member
      obtain ⟨rest, other, behind', rfl, same, followed', member⟩ := member
      obtain rfl := Option.some.inj same
      have lists := Option.some.inj (followed.symm.trans followed')
      exact ⟨(rest, last), lists ▸ member, rfl⟩

/-- A walk that ends stops at each item as often as routes lead to it. -/
theorem walk_mem (ran : walk items next depth node = some stops) {route : List α} {last : α} :
    (route, last) ∈ stops ↔ Visits (fun node item => item ∈ items node) next node route last := by
  induction depth generalizing node stops route with
  | zero => cases ran
  | succ depth ih =>
    rw [gather_mem ran]
    have ends := gather_ends.mp ⟨stops, ran⟩
    constructor
    · intro member
      obtain ⟨item, place, found, here, member⟩ := member
      rcases (stopsAt_mem here).mp member with ⟨rfl, rfl⟩ | ⟨rest, child, behind, rfl, leads, followed, member⟩
      · exact place
      · exact ⟨place, child, leads, (ih followed).mp member⟩
    · intro visits
      cases route with
      | nil =>
        obtain ⟨found, here⟩ := ends last visits
        exact ⟨last, visits, found, here, (stopsAt_mem here).mpr (.inl ⟨rfl, rfl⟩)⟩
      | cons first rest =>
        obtain ⟨place, child, leads, later⟩ := visits
        obtain ⟨found, here⟩ := ends first place
        obtain ⟨behind, followed, -⟩ := Option.map_eq_some_iff.mp here
        rw [leads] at followed
        exact ⟨first, place, found, here,
          (stopsAt_mem here).mpr (.inr ⟨rest, child, behind, rfl, leads, followed, (ih followed).mpr later⟩)⟩

theorem walk_nodup (distinct : ∀ node, (items node).Nodup) (ran : walk items next depth node = some stops) :
    stops.Nodup := by
  induction depth generalizing node stops with
  | zero => cases ran
  | succ depth ih =>
    refine gather_nodup ran (distinct node) (fun stop => stop.1.headD stop.2) fun item _ found here => ?_
    obtain ⟨behind, followed, same⟩ := Option.map_eq_some_iff.mp here
    have distinctBehind : behind.Nodup := by
      cases leads : next item with
      | none =>
        rw [leads] at followed
        rw [← Option.some.inj followed]
        exact List.nodup_nil
      | some child =>
        rw [leads] at followed
        exact ih followed
    rw [← same]
    refine ⟨List.nodup_cons.mpr ⟨?_, ?_⟩, List.forall_mem_cons.mpr ⟨rfl, List.forall_mem_map.mpr fun _ _ => rfl⟩⟩
    · intro member
      obtain ⟨stop, -, equal⟩ := List.mem_map.mp member
      cases equal
    · refine distinctBehind.map fun first second equal => ?_
      obtain ⟨routes, lasts⟩ := Prod.mk.inj equal
      exact Prod.ext (List.cons.inj routes).2 lasts

theorem stopsAt_mono {more : ν → Option (List (List α × α))}
    (same : ∀ child behind, follow child = some behind → more child = some behind) {item : α}
    (ran : stopsAt next follow item = some stops) : stopsAt next more item = some stops := by
  obtain ⟨behind, followed, equal⟩ := Option.map_eq_some_iff.mp ran
  refine Option.map_eq_some_iff.mpr ⟨behind, ?_, equal⟩
  cases leads : next item with
  | none => rwa [leads] at followed
  | some child =>
    rw [leads] at followed
    exact same child behind followed

theorem walk_mono {deeper : ℕ} (ran : walk items next depth node = some stops) (le : depth ≤ deeper) :
    walk items next deeper node = some stops := by
  induction depth generalizing node stops deeper with
  | zero => cases ran
  | succ depth ih =>
    obtain ⟨deeper, rfl⟩ := Nat.exists_eq_succ_of_ne_zero (Nat.ne_of_gt (Nat.lt_of_lt_of_le (Nat.zero_lt_succ _) le))
    rw [walk] at ran ⊢
    rw [← ran]
    refine gather_congr fun item place => ?_
    obtain ⟨found, here⟩ := gather_ends.mp ⟨stops, ran⟩ item place
    rw [here]
    exact stopsAt_mono (fun child behind followed => ih followed (Nat.le_of_succ_le_succ le)) here

/-- There is a depth for all items of a list if there is one for each of them. -/
theorem depth_exists
    (each : ∀ item ∈ list, ∀ child, next item = some child → ∃ depth stops, walk items next depth child = some stops) :
    ∃ depth, ∀ item ∈ list, ∃ stops, stopsAt next (walk items next depth) item = some stops := by
  induction list with
  | nil => exact ⟨0, nofun⟩
  | cons item rest ih =>
    rw [List.forall_mem_cons] at each
    obtain ⟨depth, others⟩ := ih each.2
    have here : ∃ depth stops, stopsAt next (walk items next depth) item = some stops := by
      cases leads : next item with
      | none => exact ⟨0, _, by rw [stopsAt, leads]; rfl⟩
      | some child =>
        obtain ⟨depth, behind, followed⟩ := each.1 child leads
        exact ⟨depth, _, by rw [stopsAt, leads, Option.elim_some, followed]; rfl⟩
    obtain ⟨own, stops, ran⟩ := here
    refine ⟨max own depth, List.forall_mem_cons.mpr ⟨⟨stops, ?_⟩, fun other place => ?_⟩⟩
    · exact stopsAt_mono (fun _ _ followed => walk_mono followed (Nat.le_max_left ..)) ran
    · obtain ⟨stops, ran⟩ := others other place
      exact ⟨stops, stopsAt_mono (fun _ _ followed => walk_mono followed (Nat.le_max_right ..)) ran⟩

/-- A walk ends if and only if no node leads to others without end. -/
theorem walk_ends :
    (∃ depth stops, walk items next depth node = some stops) ↔
      Acc (Leads (fun node item => item ∈ items node) next) node := by
  constructor
  · intro ends
    obtain ⟨depth, stops, ran⟩ := ends
    induction depth generalizing node stops with
    | zero => cases ran
    | succ depth ih =>
      refine Acc.intro node fun child leads => ?_
      obtain ⟨item, place, leads⟩ := leads
      obtain ⟨found, here⟩ := gather_ends.mp ⟨stops, ran⟩ item place
      obtain ⟨behind, followed, -⟩ := Option.map_eq_some_iff.mp here
      rw [leads] at followed
      exact ih behind followed
  · intro accessible
    induction accessible with
    | intro node _ ih =>
      obtain ⟨depth, each⟩ := depth_exists fun item place child leads => ih child ⟨item, place, leads⟩
      obtain ⟨stops, ran⟩ := gather_ends.mpr each
      exact ⟨depth + 1, stops, ran⟩

/-- Where no value comes twice, each comes from one place. -/
theorem filterMap_once {f : γ → Option β} {places : List γ} (once : (places.filterMap f).Nodup) {first second : γ}
    (place : first ∈ places) (other : second ∈ places) {value : β} (here : f first = some value)
    (there : f second = some value) : first = second := by
  have symmetric : Std.Symm fun a a' => ∀ b, f a = some b → ∀ b', f a' = some b' → b ≠ b' :=
    ⟨fun _ _ apart b here b' there same => apart b' there b here same.symm⟩
  by_contra different
  exact (List.pairwise_filterMap.mp once).forall place other different value here value there rfl

/-- What is recorded of the stops of a walk. -/
def record (entry : α → Option β) (stops : List (List α × α)) : List β := stops.filterMap fun stop => entry stop.2

/-- A walk records each of the items wanted once and nothing else if and only if it ends, one route leads to
each of them, and every other item that it stops at is not recorded. -/
theorem walk_records_iff (next : α → Option ν) (node : ν) (distinct : ∀ node, (items node).Nodup) {wanted : α → Prop}
    (recorded : ∀ item, wanted item → (entry item).isSome)
    (apart : ∀ first second value, entry first = some value → entry second = some value → first = second) :
    (∃ depth stops, walk items next depth node = some stops ∧ (record entry stops).Nodup ∧
      ∀ value, value ∈ record entry stops ↔ ∃ item, wanted item ∧ entry item = some value) ↔
    Acc (Leads (fun node item => item ∈ items node) next) node ∧
      (∀ item, wanted item → ∃! route, Visits (fun node item => item ∈ items node) next node route item) ∧
      ∀ route item, Visits (fun node item => item ∈ items node) next node route item → (entry item).isSome →
        wanted item := by
  constructor
  · intro right
    obtain ⟨depth, stops, ran, once, listed⟩ := right
    refine ⟨walk_ends.mp ⟨depth, stops, ran⟩, fun item wants => ?_, fun route item visits records => ?_⟩
    · obtain ⟨value, value_eq⟩ := Option.isSome_iff_exists.mp (recorded item wants)
      obtain ⟨⟨route, other⟩, member, same⟩ := List.mem_filterMap.mp ((listed value).mpr ⟨item, wants, value_eq⟩)
      obtain rfl := apart other item value same value_eq
      refine ⟨route, (walk_mem ran).mp member, fun second visits => ?_⟩
      have stops := filterMap_once once ((walk_mem ran).mpr visits) member value_eq same
      exact (Prod.mk.inj stops).1
    · obtain ⟨value, value_eq⟩ := Option.isSome_iff_exists.mp records
      have member : value ∈ record entry stops := List.mem_filterMap.mpr ⟨(route, item), (walk_mem ran).mpr visits, value_eq⟩
      obtain ⟨other, wants, same⟩ := (listed value).mp member
      exact apart other item value same value_eq ▸ wants
  · intro sound
    obtain ⟨ends, found, only⟩ := sound
    obtain ⟨depth, stops, ran⟩ := walk_ends.mpr ends
    refine ⟨depth, stops, ran, ?_, fun value => ?_⟩
    · refine List.pairwise_filterMap.mpr ((walk_nodup distinct ran).pairwise_of_forall_ne ?_)
      intro first place second other different value here value' there same
      subst same
      have items := apart _ _ value here there
      obtain ⟨route, -, unique⟩ := found first.2 (only first.1 first.2 ((walk_mem ran).mp place) (Option.isSome_of_eq_some here))
      have routes := (unique first.1 ((walk_mem ran).mp place)).trans (unique second.1 (items ▸ (walk_mem ran).mp other)).symm
      exact different (Prod.ext routes items)
    · constructor
      · intro member
        obtain ⟨⟨route, item⟩, place, here⟩ := List.mem_filterMap.mp member
        exact ⟨item, only route item ((walk_mem ran).mp place) (Option.isSome_of_eq_some here), here⟩
      · intro wants
        obtain ⟨item, wants, here⟩ := wants
        obtain ⟨route, visits, -⟩ := found item wants
        exact List.mem_filterMap.mpr ⟨(route, item), (walk_mem ran).mpr visits, here⟩

variable {lies other : ν → α → Prop} {matters : α → Prop}

/-- Two graphs have the same routes to what matters when they agree on it at the nodes of one of them. -/
theorem visits_congr (agree : ∀ place, Relation.ReflTransGen (fun node child => Leads lies next child node) node place →
      ∀ item, matters item → (other place item ↔ lies place item))
    (followed : ∀ item, (next item).isSome → matters item) {route : List α} {last : α} (last_matters : matters last) :
    Visits other next node route last ↔ Visits lies next node route last := by
  induction route generalizing node with
  | nil => exact agree node .refl last last_matters
  | cons first route ih =>
    constructor
    · intro visits
      obtain ⟨place, child, leads, later⟩ := visits
      have here := (agree node .refl first (followed first (Option.isSome_of_eq_some leads))).mp place
      exact ⟨here, child, leads, (ih fun place path => agree place (.head ⟨first, here, leads⟩ path)).mp later⟩
    · intro visits
      obtain ⟨here, child, leads, later⟩ := visits
      have place := (agree node .refl first (followed first (Option.isSome_of_eq_some leads))).mpr here
      exact ⟨place, child, leads, (ih fun place path => agree place (.head ⟨first, here, leads⟩ path)).mpr later⟩

theorem ends_congr (agree : ∀ place, Relation.ReflTransGen (fun node child => Leads lies next child node) node place →
      ∀ item, matters item → (other place item ↔ lies place item))
    (followed : ∀ item, (next item).isSome → matters item) (ends : Acc (Leads lies next) node) : Acc (Leads other next) node := by
  induction ends with
  | intro node _ ih =>
    refine Acc.intro node fun child leads => ?_
    obtain ⟨item, place, leads⟩ := leads
    have here := (agree node .refl item (followed item (Option.isSome_of_eq_some leads))).mp place
    exact ih child ⟨item, here, leads⟩ fun place path => agree place (.head ⟨item, here, leads⟩ path)

end YuzuOS.Library.Routes

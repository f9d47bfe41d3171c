import R0Kernel.Foundation.Dyadic

/-! # The buddy allocator of one zone

The free lists of a zone, the per-page marks they rely on and the functions of
`mm/page_alloc.c` that work on them under `zone->lock`. Pages are named by
their frame numbers. Debugging checks, compound pages and the reference counts
that only `BUG_ON` reads are not part of the state.
-/

namespace R0Kernel.Mm.PageAlloc

open R0Kernel.Dyadic Function

inductive MigrateType where
  | unmovable
  | reclaimable
  | movable
  | reserve
  | isolate
  deriving DecidableEq

instance : Fintype MigrateType where
  elems := {.unmovable, .reclaimable, .movable, .reserve, .isolate}
  complete mt := by cases mt <;> decide

/-- Build and boot time parameters: `MAX_ORDER`, `pageblock_order` and
`page_group_by_mobility_disabled`. -/
structure Config where
  maxOrder : Nat
  maxOrder_pos : 0 < maxOrder
  pageblockOrder : Nat
  groupByMobilityDisabled : Bool

/-- The frames of the zone. The zone number that every `struct page` stores is
the zone's own exactly inside the span. -/
structure ZoneSpan where
  zoneStartPfn : Nat
  spannedPages : Nat
  zoneId : Nat
  pageZoneId : Nat → Nat
  pageZoneId_eq_iff : ∀ pfn, pageZoneId pfn = zoneId ↔
    zoneStartPfn ≤ pfn ∧ pfn < zoneStartPfn + spannedPages

structure Page where
  buddy : Bool
  private' : Nat
  deriving DecidableEq

/-- The page array together with the lists threaded through it. A list is the
sequence of its pages from `free_list.next` on. -/
structure FreeLists where
  span : ZoneSpan
  page : Nat → Page
  freeList : Nat → MigrateType → List Nat

structure Zone extends FreeLists where
  nrFree : Nat → Int
  nrFreePages : Int
  pageblockFlags : Nat → MigrateType

namespace FreeLists

variable (a : FreeLists)

/-- `list_del`: a page's `lru` links it into one list, which loses it. -/
def listDel (pfn : Nat) : FreeLists :=
  { a with freeList := fun order mt => (a.freeList order mt).erase pfn }

def listAdd (order : Nat) (mt : MigrateType) (pfn : Nat) : FreeLists :=
  { a with freeList := fun o m =>
      if o = order ∧ m = mt then pfn :: a.freeList o m else a.freeList o m }

def setPageOrder (pfn order : Nat) : FreeLists :=
  { a with page := update a.page pfn ⟨true, order⟩ }

def rmvPageOrder (pfn : Nat) : FreeLists :=
  { a with page := update a.page pfn ⟨false, 0⟩ }

/-- Both pages are of one zone and the second heads a free block of the order. -/
def pageIsBuddy (page buddy order : Nat) : Bool :=
  a.span.pageZoneId page == a.span.pageZoneId buddy &&
    ((a.page buddy).buddy && (a.page buddy).private' == order)

/-- The loop of `move_freepages` from `page` on. Each round advances by at
least one frame, so the number of frames up to `endPage` bounds the rounds. -/
def moveFreepages (mt : MigrateType) (endPage : Nat) :
    Nat → FreeLists → Nat → FreeLists × Nat
  | 0, a, _ => (a, 0)
  | rounds + 1, a, page =>
    if page ≤ endPage then
      if (a.page page).buddy then
        let order := (a.page page).private'
        let rest := moveFreepages mt endPage rounds
          ((a.listDel page).listAdd order mt page) (page + 1 <<< order)
        (rest.1, rest.2 + 1 <<< order)
      else moveFreepages mt endPage rounds a (page + 1)
    else (a, 0)

/-- The page block of `page`, unless it leaves the zone at its end; a block that
starts before the zone is walked from `page` itself. -/
def moveFreepagesBlock (cfg : Config) (a : FreeLists) (page : Nat) (mt : MigrateType) :
    FreeLists × Nat :=
  let startPfn := page - page % (1 <<< cfg.pageblockOrder)
  let endPfn := startPfn + 1 <<< cfg.pageblockOrder - 1
  let startPage := if startPfn < a.span.zoneStartPfn then page else startPfn
  if a.span.zoneStartPfn + a.span.spannedPages ≤ endPfn then (a, 0)
  else moveFreepages mt endPfn (endPfn + 1 - startPage) a startPage

end FreeLists

namespace Zone

def listDel (z : Zone) (pfn : Nat) : Zone :=
  { z with toFreeLists := z.toFreeLists.listDel pfn }

def listAdd (z : Zone) (order : Nat) (mt : MigrateType) (pfn : Nat) : Zone :=
  { z with toFreeLists := z.toFreeLists.listAdd order mt pfn }

def setPageOrder (z : Zone) (pfn order : Nat) : Zone :=
  { z with toFreeLists := z.toFreeLists.setPageOrder pfn order }

def rmvPageOrder (z : Zone) (pfn : Nat) : Zone :=
  { z with toFreeLists := z.toFreeLists.rmvPageOrder pfn }

/-- `zone->free_area[order].nr_free += delta`. -/
def addNrFree (z : Zone) (order : Nat) (delta : Int) : Zone :=
  { z with nrFree := update z.nrFree order (z.nrFree order + delta) }

/-- `__mod_zone_page_state(zone, NR_FREE_PAGES, delta)`. -/
def modZonePageState (z : Zone) (delta : Int) : Zone :=
  { z with nrFreePages := z.nrFreePages + delta }

/-- The index of the frame's page block in the zone's flags. -/
def pfnToBitidx (cfg : Config) (z : Zone) (pfn : Nat) : Nat :=
  (pfn - z.span.zoneStartPfn) >>> cfg.pageblockOrder

def getPageblockMigratetype (cfg : Config) (z : Zone) (page : Nat) : MigrateType :=
  if cfg.groupByMobilityDisabled then .unmovable
  else z.pageblockFlags (z.pfnToBitidx cfg page)

def setPageblockMigratetype (cfg : Config) (z : Zone) (page : Nat) (mt : MigrateType) : Zone :=
  { z with pageblockFlags := update z.pageblockFlags (z.pfnToBitidx cfg page) mt }

end Zone

/-! ## Freeing -/

def pageFindBuddy (page pageIdx order : Nat) : Nat :=
  page + (pageIdx ^^^ 1 <<< order) - pageIdx

def findCombinedIndex (pageIdx order : Nat) : Nat := andNot pageIdx (1 <<< order)

/-- The loop of `__free_one_page`: take the free buddy off its list and go on
with the pair. `rounds` is `MAX_ORDER - 1 - order`. -/
def coalesce : Nat → Zone → Nat → Nat → Nat → Zone × Nat × Nat
  | 0, z, page, _, order => (z, page, order)
  | rounds + 1, z, page, pageIdx, order =>
    let buddy := pageFindBuddy page pageIdx order
    if z.pageIsBuddy page buddy order then
      let z := ((z.listDel buddy).addNrFree order (-1)).rmvPageOrder buddy
      let combinedIdx := findCombinedIndex pageIdx order
      coalesce rounds z (page + combinedIdx - pageIdx) combinedIdx (order + 1)
    else (z, page, order)

variable (cfg : Config) (z : Zone)

def freeOnePage (page order : Nat) : Zone :=
  let migratetype := z.getPageblockMigratetype cfg page
  let pageIdx := page &&& (1 <<< cfg.maxOrder - 1)
  let z := z.modZonePageState (1 <<< order)
  let merged := coalesce (cfg.maxOrder - 1 - order) z page pageIdx order
  let page := merged.2.1
  let order := merged.2.2
  ((merged.1.setPageOrder page order).listAdd order migratetype page).addNrFree order 1

/-! ## Allocating -/

/-- Split a block of order `high` down to `low`, listing each upper half. -/
def expand (page low : Nat) (mt : MigrateType) : Nat → Zone → Zone
  | 0, z => z
  | high + 1, z =>
    if low < high + 1 then
      let size := 1 <<< high
      expand page low mt high
        (((z.listAdd high mt (page + size)).addNrFree high 1).setPageOrder (page + size) high)
    else z

variable (order : Nat)

/-- The body of `__rmqueue_smallest` once a non-empty list is found. -/
def takeSmallest (mt : MigrateType) (currentOrder page : Nat) : Zone :=
  let z := ((z.listDel page).rmvPageOrder page).addNrFree currentOrder (-1)
  expand page order mt currentOrder (z.modZonePageState (-(1 <<< order)))

/-- The loop of `__rmqueue_smallest` over the orders still to be tried. -/
def rmqueueSmallestFrom (z : Zone) (order : Nat) (mt : MigrateType) :
    List Nat → Option (Nat × Zone)
  | [] => none
  | currentOrder :: rest =>
    match z.freeList currentOrder mt with
    | [] => rmqueueSmallestFrom z order mt rest
    | page :: _ => some (page, takeSmallest z order mt currentOrder page)

def rmqueueSmallest (mt : MigrateType) : Option (Nat × Zone) :=
  rmqueueSmallestFrom z order mt (List.range' order (cfg.maxOrder - order))

/-- The table has `MIGRATE_TYPES - 1` columns and its initialisers fill only
three of them and not the row of `MIGRATE_ISOLATE`: the rest is zero, that is
`MIGRATE_UNMOVABLE`. -/
def fallbacks : MigrateType → List MigrateType
  | .unmovable => [.reclaimable, .movable, .reserve, .unmovable]
  | .reclaimable => [.unmovable, .movable, .reserve, .unmovable]
  | .movable => [.reclaimable, .unmovable, .reserve, .unmovable]
  | .reserve => [.reserve, .reserve, .reserve, .unmovable]
  | .isolate => [.unmovable, .unmovable, .unmovable, .unmovable]

/-- The part of the body of `__rmqueue_fallback` that claims the page block: the
free pages of the block change lists while `page` is still on its own. -/
def claimPageblock (page : Nat) (startMt : MigrateType) : Zone :=
  let moved := z.moveFreepagesBlock cfg page startMt
  let z := { z with toFreeLists := moved.1 }
  if 1 <<< (cfg.pageblockOrder - 1) ≤ moved.2 then z.setPageblockMigratetype cfg page startMt
  else z

/-- The body of `__rmqueue_fallback` once a non-empty list is found. -/
def takeFallback (startMt mt : MigrateType) (currentOrder page : Nat) : Zone :=
  let z := z.addNrFree currentOrder (-1)
  let claim := decide (cfg.pageblockOrder >>> 1 ≤ currentOrder) || startMt == .reclaimable
  let z := if claim then claimPageblock cfg z page startMt else z
  let mt := if claim then startMt else mt
  let z := ((z.listDel page).rmvPageOrder page).modZonePageState (-(1 <<< order))
  let z := if currentOrder = cfg.pageblockOrder then z.setPageblockMigratetype cfg page startMt
    else z
  expand page order mt currentOrder z

/-- The two nested loops of `__rmqueue_fallback` over the pairs of an order and
a list still to be tried. -/
def rmqueueFallbackFrom (cfg : Config) (z : Zone) (order : Nat) (startMt : MigrateType) :
    List (Nat × MigrateType) → Option (Nat × Zone)
  | [] => rmqueueSmallest cfg z order .reserve
  | (currentOrder, mt) :: rest =>
    if mt = .reserve then rmqueueFallbackFrom cfg z order startMt rest
    else
      match z.freeList currentOrder mt with
      | [] => rmqueueFallbackFrom cfg z order startMt rest
      | page :: _ => some (page, takeFallback cfg z order startMt mt currentOrder page)

def rmqueueFallback (startMt : MigrateType) : Option (Nat × Zone) :=
  rmqueueFallbackFrom cfg z order startMt
    ((List.range' order (cfg.maxOrder - order)).reverse.flatMap fun currentOrder =>
      (fallbacks startMt).map fun mt => (currentOrder, mt))

def rmqueue (mt : MigrateType) : Option (Nat × Zone) :=
  match rmqueueSmallest cfg z order mt with
  | some found => some found
  | none => rmqueueFallback cfg z order mt

end R0Kernel.Mm.PageAlloc

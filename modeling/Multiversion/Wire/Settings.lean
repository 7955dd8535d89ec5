import Multiversion.Settings
import Multiversion.Wire.Tree
/- Settings as trees. -/
namespace Multiversion
open Wire (Tree)

def Duration.toTree (d : Duration) : Tree :=
  .record [("secs", .int d.secs), ("nanos", .int d.nanos)]

/-- A span has no other fields than its two. Nanoseconds beyond a second carry over. -/
def Duration.ofTree? (t : Tree) : Option Duration := do
  if let .record fields := t then
    guard (fields.all fun f => f.1 = "secs" || f.1 = "nanos")
  match ← t.fields? ["secs", "nanos"] with
  | [some secs, some nanos] => Duration.carry? (← secs.nat64?) (← nanos.nat32?)
  | _ => none

/-- All schemes. -/
def Scheme.all : List Scheme := [.unversioned, .simple, .totalOrder, .multiversion]

def Scheme.toTree (s : Scheme) : Tree := .text s.name

def Scheme.ofName? (name : String) : Option Scheme := Scheme.all.find? (·.name = name)

def Scheme.ofTree? (t : Tree) : Option Scheme := t.plainChoice?.bind Scheme.ofName?

/-- The name of a placement is that of the kind of its commits. -/
def Placement.name (p : Placement) : String := (Kind.commit p).name

def Placement.toTree (p : Placement) : Tree := .text p.name

def Placement.ofName? (name : String) : Option Placement :=
  [Placement.replicated, .distributed].find? (·.name = name)

def Placement.ofTree? (t : Tree) : Option Placement := t.plainChoice?.bind Placement.ofName?

def Settings.toTree (s : Settings) : Tree :=
  .record [("versioning", s.scheme.toTree), ("cache_mode", s.placement.toTree),
    ("l1_enabled", .bool s.shadowCopies), ("l1_lifespan", s.shadowLifespan.toTree),
    ("sync_replication_timeout", s.replicationTimeout.toTree),
    ("gc_interval", (s.gcInterval.map Duration.toTree).getD .null)]

/-- Every setting may be missing and then has its default. -/
def Settings.ofTree? (t : Tree) : Option Settings := do
  let d : Settings := {}
  match ← t.fields? ["versioning", "cache_mode", "l1_enabled", "l1_lifespan",
    "sync_replication_timeout",
      "gc_interval"] with
  | [scheme, placement, shadowCopies, lifespan, timeout, interval] =>
    return {
      scheme := ← Tree.orDefault? d.scheme Scheme.ofTree? scheme
      placement := ← Tree.orDefault? d.placement Placement.ofTree? placement
      shadowCopies := ← Tree.orDefault? d.shadowCopies Tree.bool? shadowCopies
      shadowLifespan := ← Tree.orDefault? d.shadowLifespan Duration.ofTree? lifespan
      replicationTimeout := ← Tree.orDefault? d.replicationTimeout Duration.ofTree? timeout
      gcInterval := ← Tree.orDefault? d.gcInterval (Tree.optional? Duration.ofTree?) interval }
  | _ => none

end Multiversion

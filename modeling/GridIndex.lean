import GridIndex.Binary
import GridIndex.Decimal.Shortest
import GridIndex.Decimal.Notation
import GridIndex.Geometry.Point
import GridIndex.Geometry.Rect
import GridIndex.Geometry.Segment
import GridIndex.Geometry.Crossing
import GridIndex.Geometry.Clip
import GridIndex.Grid.Axis
import GridIndex.Grid.Error
import GridIndex.Grid.Layout
import GridIndex.Grid.Walk
import GridIndex.Grid.Event
import GridIndex.Grid.Basic
import GridIndex.Grid.Query
import GridIndex.Proofs.FloatOrder
import GridIndex.Proofs.FloatRound
import GridIndex.Proofs.FloatValue
import GridIndex.Proofs.FloatArith
import GridIndex.Proofs.FloatMono
import GridIndex.Proofs.Locate
import GridIndex.Proofs.RangeQuery
import GridIndex.Proofs.Safety
import GridIndex.Proofs.FloatSpecial
import GridIndex.Proofs.Insertion
import GridIndex.Proofs.FloatDiv
import GridIndex.Proofs.FloatError
import GridIndex.Proofs.Interpolation
import GridIndex.Proofs.ClipStart
import GridIndex.Proofs.InsertOrder
import GridIndex.Proofs.QueryMonotone
import GridIndex.Proofs.FullRegion
import GridIndex.Proofs.ClipInside
import GridIndex.Proofs.Heading
import GridIndex.Proofs.FloatFloor
import GridIndex.Proofs.FloatQuotient
import GridIndex.Proofs.CoordFloor
import GridIndex.Proofs.Construction
import GridIndex.Proofs.CrossingMargins
import GridIndex.Proofs.PaddedFrame
import GridIndex.Proofs.PaddedExit
import GridIndex.Proofs.Tiling
import GridIndex.Proofs.Staircase
import GridIndex.Proofs.CrossingPoint

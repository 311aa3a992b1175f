import SheetImports.Text.Utf8.Lemmas
import SheetImports.Text.Blank
import SheetImports.Text.Quoted
import SheetImports.Stylesheet.Piece
import SheetImports.Stylesheet.Directive
import SheetImports.Uri.Shorten
import SheetImports.Candidate
import SheetImports.Source
import SheetImports.Path
import SheetImports.Store.Disk
import SheetImports.Json.Printer
import SheetImports.Json.Parser
import SheetImports.Strategy.Filesystem
import SheetImports.Strategy.Faulty
import SheetImports.Chain
import SheetImports.Tree.Render
import SheetImports.Follow
import SheetImports.Config
import SheetImports.Command.Run
import SheetImports.Main
import SheetImports.Proofs.Blanking
import SheetImports.Proofs.Targets
import SheetImports.Proofs.RoundTrip
import SheetImports.Proofs.Lookup
import SheetImports.Proofs.Placement
import SheetImports.Proofs.Run
import SheetImports.Proofs.Seen
import SheetImports.Proofs.Reachable
import SheetImports.Proofs.DepthLimit
import SheetImports.Proofs.Comments
import SheetImports.Proofs.SearchRoots
import SheetImports.Proofs.Ending
import SheetImports.Proofs.Bundles
import SheetImports.Proofs.Characters
import SheetImports.Proofs.Slices
import SheetImports.Proofs.Outside
import SheetImports.Proofs.Offsets
import SheetImports.Proofs.UrlValues
import SheetImports.Proofs.FoldedForm
import SheetImports.Proofs.Spelling
import SheetImports.Proofs.Extension
import SheetImports.Proofs.RootScheme
import SheetImports.Proofs.ConfigRoots
import SheetImports.Proofs.Revisited
import SheetImports.Proofs.Origins
import SheetImports.Proofs.Lines
import SheetImports.Proofs.Drawing
import SheetImports.Proofs.Arguments
import SheetImports.Proofs.TwoRuns
import SheetImports.Proofs.Levels
import SheetImports.Proofs.Listing
import SheetImports.Proofs.WayUp
import SheetImports.Proofs.NearestConfig
import SheetImports.Proofs.WithoutComments
import SheetImports.Proofs.Quoting
import SheetImports.Proofs.ShortNames

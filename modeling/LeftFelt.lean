import LeftFelt.Image.BitmapFormat
import LeftFelt.Image.Morphology
import LeftFelt.Image.Thinning
import LeftFelt.Lib.TwoSweeps
import LeftFelt.Image.Labeling
import LeftFelt.Image.LabelingTables
import LeftFelt.Image.LabelingLaws
import LeftFelt.Base.Str
import LeftFelt.Base.Tag
import LeftFelt.Base.Xml
import LeftFelt.Base.XmlTotal
import LeftFelt.Base.XmlText
import LeftFelt.Base.Attribute
import LeftFelt.Lib.Segments
import LeftFelt.Base.Http
import LeftFelt.Base.HttpUrl
import LeftFelt.Base.HttpPath
import LeftFelt.Lib.Tables
import LeftFelt.Web.Account
import LeftFelt.Web.Isolation
import LeftFelt.Lib.Traced
import LeftFelt.Web.Controller
import LeftFelt.Web.LoginGuard
import LeftFelt.Web.Token
import LeftFelt.Web.AddService
import LeftFelt.Web.Login
import LeftFelt.Web.Method
import LeftFelt.Lib.Expiring
import LeftFelt.Web.Cache
import LeftFelt.Lib.Records
import LeftFelt.Web.Paint
import LeftFelt.Lib.Lone
import LeftFelt.Cluster.PatternQueue
import LeftFelt.Cluster.KMeans
import LeftFelt.Cluster.ClusterRepository
import LeftFelt.Base.Socket
import LeftFelt.Gui.Window
import LeftFelt.Lib.Standing
import LeftFelt.Web.Escape
import LeftFelt.Web.Tags
import LeftFelt.Lib.ReadModifyWrite
import LeftFelt.Web.Comments
import LeftFelt.Web.Videos
import LeftFelt.Graph.Graph
import LeftFelt.Graph.GraphFile
import LeftFelt.Base.Number
import LeftFelt.Base.Split
import LeftFelt.Base.Script
import LeftFelt.Base.UrlEncode
import LeftFelt.Base.HttpReference
import LeftFelt.Image.LabelingBounds
import LeftFelt.Image.ThinningErodes
import LeftFelt.Image.Filters
import LeftFelt.Graph.CopyGraph
import LeftFelt.Image.Buffer
import LeftFelt.Image.Objects
import LeftFelt.Image.LegacyLabel
import LeftFelt.Image.LegacyObjects
import LeftFelt.Lib.Tally
import LeftFelt.Image.Sampling
import LeftFelt.Image.TopHat
import LeftFelt.Lib.SweepNumbers
import LeftFelt.Sensor.Hand
import LeftFelt.Lib.FloatFormat
import LeftFelt.Lib.Flood
import LeftFelt.Image.RegionSplit
import LeftFelt.Lib.Rounding
import LeftFelt.Lib.Binary32
import LeftFelt.Image.Matching
import LeftFelt.Lib.Least
import LeftFelt.Image.Histogram
import LeftFelt.Image.Contrast
import LeftFelt.Lib.RelativeError
import LeftFelt.Image.Threshold
import LeftFelt.Lib.Variance
import LeftFelt.Image.Discriminant
import LeftFelt.Image.Palette
import LeftFelt.Image.Access
import LeftFelt.Lib.InPlace
import LeftFelt.Image.LowPass
import LeftFelt.Image.Gradients
import LeftFelt.Image.Gain
import LeftFelt.Sensor.EndPoints
import LeftFelt.Image.Hsv
import LeftFelt.Image.ColourRange
import LeftFelt.Sensor.Skin
import LeftFelt.Gui.Key
import LeftFelt.Cluster.Membership
import LeftFelt.Lib.Sentinel
import LeftFelt.Graph.GraphSize
import LeftFelt.Base.Area
import LeftFelt.Image.Scope
import LeftFelt.Lib.LastWrite
import LeftFelt.Image.Paste
import LeftFelt.Image.Arithmetic
import LeftFelt.Lib.CInt
import LeftFelt.Lib.ErrorWalk
import LeftFelt.Gui.Line
import LeftFelt.Gui.Square
import LeftFelt.Cluster.Objective
import LeftFelt.Lib.Shares
import LeftFelt.Cluster.Fuzzy
import LeftFelt.Lib.Occurrences
import LeftFelt.Base.Replace
import LeftFelt.Lib.Steps
import LeftFelt.Graph.Wavelet
import LeftFelt.Image.LegacyPaste
import LeftFelt.Lib.Search
import LeftFelt.Lib.Pages
import LeftFelt.Base.Crawler
import LeftFelt.Web.ImageManager
import LeftFelt.Web.ImageCrawler
import LeftFelt.Web.CrawlSearch
import LeftFelt.Web.CrawlRuns
import LeftFelt.Lib.Answers
import LeftFelt.Web.Directory
import LeftFelt.Lib.Descent
import LeftFelt.Cluster.Settled
import LeftFelt.Image.LegacyFile
import LeftFelt.Image.BitmapExchange
import LeftFelt.Web.PaintServer
import LeftFelt.Web.PaintPairs
import LeftFelt.Web.PaintSystem
import LeftFelt.Lib.Packing
import LeftFelt.Cluster.Knowledge
import LeftFelt.Lib.Average
import LeftFelt.Cluster.Within
import LeftFelt.Web.Ticket
import LeftFelt.Lib.ReadThrough
import LeftFelt.Web.PointSite
import LeftFelt.Lib.Ranks
import LeftFelt.Web.Ranking
import LeftFelt.Image.LegacyFilters
import LeftFelt.Lib.Foremost
